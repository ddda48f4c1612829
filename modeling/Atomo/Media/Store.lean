import Atomo.Data.Event
import Atomo.Jobs.Store
import Atomo.Lib.Scan

/-!
# Uploaded media

`MediaState` of `media.rs` over a `StorageBackend`: the rows of `media`, the objects of the backend, and the keys
that have been made, with the URLs presigned for them. Every call is one step. What Postgres, the backend and the
clock do is in its label: which row a `LIMIT 1` returns, which of the writes fail, what time it is. A call that ends
before its first write changes nothing, so the labels have no failures of reads.
-/

namespace Atomo.Media

open Jobs (Uuids)

abbrev Bytes := List UInt8

/-- A tenant id becomes the first segment of a storage key. -/
structure TenantId where
  text : String
  plain : '/' ∉ text.toList
  deriving DecidableEq

/-- The text of a `Uuid` has neither slashes nor dots. -/
structure MediaIds extends Uuids where
  plain : ∀ k, '/' ∉ (draw k).toList ∧ '.' ∉ (draw k).toList

instance : Inhabited MediaIds where
  default :=
    { toUuids := default
      plain := fun k => by simp [default] }

/-! ## Rows and objects -/

/-- A row of `media`. -/
structure MediaRow where
  id : String
  tenantId : Option TenantId
  filename : String
  contentType : String
  size : Int64
  storageKey : String
  checksum : Option String
  uploadedBy : String
  deletedAt : Option Int
  deriving DecidableEq

/-- What the code asks of a `StorageBackend` besides its objects. -/
structure Backend where
  presigns : Bool
  accepts : String → Bool

/-- `LocalStorage`, which rejects a key in `resolve`. -/
def localStorage : Backend where
  presigns := false
  accepts key := !(key.toList.isEmpty || decide (['.', '.'] <:+: key.toList) || ['/'].isPrefixOf key.toList)

/-- `S3Storage`. -/
def s3Storage : Backend where
  presigns := true
  accepts _ := true

structure MediaEnv where
  backend : Backend
  privateReads : Bool
  sha256Hex : Bytes → String
  /-- `%Y` and `%m` of an instant. -/
  yearMonth : Int → String × String
  ids : MediaIds

/-- A key that was generated, the tenant that it was generated for, and until when its presigned URL is good. -/
structure Minted where
  key : String
  tenantId : Option TenantId
  putUntil : Option Int
  deriving DecidableEq

structure MediaState where
  rows : List MediaRow
  objects : String → Option Bytes
  minted : List Minted
  drawn : Nat
  events : List ModelEvent

/-- `AuthUser`, as far as the routes read it. -/
structure MediaUser where
  id : String
  tenantId : Option TenantId

/-! ## Keys -/

/-- `Path::file_name`. -/
def fileName (path : String) : Option (List Char) :=
  match ((path.toList.splitOn '/').filter fun c => c ≠ [] ∧ c ≠ ['.']).getLast? with
  | some ['.', '.'] => none
  | name => name

/-- What follows the last dot of a name, unless that dot is its first character. -/
def extensionOf (name : List Char) : Option (List Char) :=
  let after := Scan.afterLast '.' name
  if '.' ∈ name ∧ name ≠ '.' :: after then some after else none

/-- `Path::extension` with a dot before it. -/
def dotExtension (filename : String) : List Char :=
  match (fileName filename).bind extensionOf with
  | some e => '.' :: e
  | none => []

def tenantText (tenantId : Option TenantId) : String :=
  (tenantId.map TenantId.text).getD "public"

/-- `MediaState::storage_key`. -/
def storageKey (env : MediaEnv) (id filename : String) (tenantId : Option TenantId) (now : Int) : String :=
  let (year, month) := env.yearMonth now
  tenantText tenantId ++ "/" ++ year ++ "/" ++ month ++ "/" ++ id ++ String.ofList (dotExtension filename)

/-- `key.starts_with(&format!("{tenant}/"))`. -/
def ownsKey (tenantId : Option TenantId) (key : String) : Bool :=
  (tenantText tenantId ++ "/").toList.isPrefixOf key.toList

theorem mem_fileName {path : String} {name : List Char} (h : fileName path = some name) : '/' ∉ name := by
  unfold fileName at h
  split at h
  · cases h
  · have hmem := List.mem_of_getLast? h
    exact Scan.not_mem_of_mem_splitOn (List.mem_filter.1 hmem).1

theorem mem_extensionOf {name e : List Char} (h : extensionOf name = some e) : e ⊆ name := by
  unfold extensionOf at h
  dsimp only at h
  split_ifs at h
  cases h
  intro c hc
  exact List.mem_reverse.1 ((List.takeWhile_sublist _).subset (List.mem_reverse.1 hc))

theorem dotExtension_cases (filename : String) : dotExtension filename = [] ∨ ∃ e, dotExtension filename = '.' :: e := by
  unfold dotExtension
  split
  · exact .inr ⟨_, rfl⟩
  · exact .inl rfl

theorem slash_not_mem_dotExtension (filename : String) : '/' ∉ dotExtension filename := by
  unfold dotExtension
  split
  · rename_i e he
    obtain ⟨name, hname, hext⟩ := Option.bind_eq_some_iff.1 he
    intro hmem
    cases List.mem_cons.1 hmem with
    | inl hdot => exact absurd hdot (by decide)
    | inr hrest => exact mem_fileName hname (mem_extensionOf hext hrest)
  · exact List.not_mem_nil

/-- The id in the last segment of a key. -/
def keyId (key : String) : List Char :=
  Scan.beforeFirst '.' (Scan.afterLast '/' key.toList)

/-- A generated key tells its id. -/
theorem keyId_storageKey (env : MediaEnv) (k : Nat) (filename : String) (tenantId : Option TenantId) (now : Int) :
    keyId (storageKey env (env.ids.draw k) filename tenantId now) = (env.ids.draw k).toList := by
  have hsegment : '/' ∉ (env.ids.draw k).toList ++ dotExtension filename := by
    intro hmem
    cases List.mem_append.1 hmem with
    | inl hid => exact (env.ids.plain k).1 hid
    | inr hext => exact slash_not_mem_dotExtension filename hext
  have hkey : (storageKey env (env.ids.draw k) filename tenantId now).toList =
      (tenantText tenantId ++ "/" ++ (env.yearMonth now).1 ++ "/" ++ (env.yearMonth now).2).toList ++
        '/' :: ((env.ids.draw k).toList ++ dotExtension filename) := by
    unfold storageKey
    simp [String.toList_append]
  unfold keyId
  rw [hkey, Scan.afterLast_append _ hsegment]
  exact Scan.beforeFirst_append (env.ids.plain k).2 (dotExtension_cases filename)

/-- A key that is generated for a tenant lies under its prefix, and under that of no other. -/
theorem ownsKey_storageKey {env : MediaEnv} {id filename : String} {tenantId tenantId' : Option TenantId} {now : Int} :
    ownsKey tenantId' (storageKey env id filename tenantId now) = true ↔ tenantText tenantId' = tenantText tenantId := by
  have hplain : ∀ t : Option TenantId, '/' ∉ (tenantText t).toList := by
    intro t
    cases t with
    | none => decide
    | some t => exact t.plain
  have hkey : ∃ rest, (storageKey env id filename tenantId now).toList = (tenantText tenantId).toList ++ '/' :: rest := by
    unfold storageKey
    exact ⟨((env.yearMonth now).1 ++ "/" ++ (env.yearMonth now).2 ++ "/" ++ id).toList ++ dotExtension filename,
      by simp [String.toList_append]⟩
  obtain ⟨rest, hrest⟩ := hkey
  unfold ownsKey
  have hslash : "/".toList = ['/'] := by decide
  rw [List.isPrefixOf_iff_prefix, hrest, String.toList_append, hslash]
  constructor
  · rintro ⟨tail, htail⟩
    have hsame := congrArg (Scan.beforeFirst '/') htail
    rw [List.append_assoc, List.singleton_append, Scan.beforeFirst_append (hplain tenantId') (.inr ⟨tail, rfl⟩),
      Scan.beforeFirst_append (hplain tenantId) (.inr ⟨rest, rfl⟩)] at hsame
    exact String.toList_inj.1 hsame
  · intro hsame
    rw [hsame]
    exact ⟨rest, by simp⟩

/-! ## Content types -/

def allowedTypes : List String :=
  ["image/", "video/", "audio/", "application/pdf", "text/plain", "application/json", "application/zip",
    "application/octet-stream"]

def startsWith (ct p : String) : Bool :=
  p.toList.isPrefixOf ct.toList

def contentTypeAllowed (ct : String) : Bool :=
  if ct = "image/svg+xml" ∨ startsWith ct "text/html" then false
  else allowedTypes.any (startsWith ct)

/-! ## Calls -/

/-- A write of `store_upload` that fails; after a failed `INSERT` the object is deleted, unless that fails too. -/
inductive StoreFault where
  | put
  | insert (cleaned : Bool)
  deriving DecidableEq

/-- `CommitReq`. -/
structure CommitReq where
  id : String
  key : String
  filename : Option String
  contentType : Option String
  checksum : Option String

inductive MediaReply where
  | stored (id checksum : String)
  | presigned (id key : String)
  | committed (id : String) (deduped : Bool)
  | served (key contentType : String) (bytes : Bytes)
  | redirected (key : String)
  | noContent
  | purged (n : Nat)
  | uploaded
  | unauthorized
  | forbidden
  | notFound
  | unsupported
  | badRequest (text : String)
  | failed

/-- A call; `found` is the id that the `SELECT … LIMIT 1` of the call returns. -/
inductive MediaAct where
  | storeUpload (filename contentType : String) (bytes : Bytes) (userId : String) (tenantId : Option TenantId)
      (now : Int) (found : Option String) (fault : Option StoreFault)
  | presignUpload (filename : String) (tenantId : Option TenantId) (now : Int)
  | clientPut (key : String) (bytes : Bytes) (now : Int)
  | commit (req : CommitReq) (user : Option MediaUser) (found : Option String)
  | deleteMedia (id : String) (user : Option MediaUser) (now : Int) (removed : Bool)
  | serveMedia (id : String) (user : Option MediaUser)
  | purgeDeleted (selectBefore deleteBefore : Int) (kept : List String)

def MediaRow.isLive (row : MediaRow) : Bool :=
  row.deletedAt.isNone

/-- `checksum = $1 AND tenant_id IS NOT DISTINCT FROM $2 AND deleted_at IS NULL`. -/
def MediaRow.matches (checksum : String) (tenantId : Option TenantId) (row : MediaRow) : Bool :=
  row.checksum = some checksum ∧ row.tenantId = tenantId ∧ row.isLive

/-- `deleted_at IS NOT NULL AND deleted_at < $1`. -/
def MediaRow.deletedBefore (before : Int) (row : MediaRow) : Bool :=
  row.deletedAt.any (· < before)

namespace MediaState

def empty : MediaState :=
  ⟨[], fun _ => none, [], 0, []⟩

variable (env : MediaEnv) (s : MediaState)

def find? (p : MediaRow → Bool) (id : String) : Option MediaRow :=
  s.rows.find? fun row => row.id = id ∧ p row

/-- `SELECT id FROM media WHERE checksum = … LIMIT 1` may return `found`. -/
def mayFind (checksum : String) (tenantId : Option TenantId) : Option String → Bool
  | some id => (s.find? (·.matches checksum tenantId) id).isSome
  | none => !s.rows.any (·.matches checksum tenantId)

def putObject (key : String) (bytes : Bytes) : MediaState :=
  { s with objects := Function.update s.objects key (some bytes) }

def deleteObject (key : String) (removed : Bool) : MediaState :=
  if removed then { s with objects := Function.update s.objects key none } else s

def emit (eventType : EventType) (id actor : String) (extra : List (String × Json)) : MediaState :=
  { s with events := s.events ++ [{
      eventType, modelName := "Media", data := extra ++ [("id", .string id)], actor := some actor }] }

/-- The `extra` of a `Created` event. -/
def created (contentType : String) (size : Nat) : List (String × Json) :=
  [("contentType", .string contentType), ("size", .number (.posInt (.ofNat size)))]

/-- `store_upload` for content that no live row of the tenant has. -/
def storeNew (filename contentType : String) (bytes : Bytes) (userId : String) (tenantId : Option TenantId) (now : Int)
    (fault : Option StoreFault) : MediaReply × MediaState :=
  let checksum := env.sha256Hex bytes
  let id := env.ids.draw s.drawn
  let key := storageKey env id filename tenantId now
  let s := { s with drawn := s.drawn + 1, minted := s.minted ++ [⟨key, tenantId, none⟩] }
  if fault = some .put ∨ env.backend.accepts key = false then (.failed, s)
  else
    let s := s.putObject key bytes
    match fault with
    | some (.insert cleaned) => (.failed, s.deleteObject key cleaned)
    | _ =>
      -- the primary key of a row that a client has committed under this id
      if id ∈ s.rows.map MediaRow.id then (.failed, s.deleteObject key true)
      else
        let row : MediaRow :=
          { id, tenantId, filename, contentType, size := .ofNat bytes.length, storageKey := key
            checksum := some checksum, uploadedBy := userId, deletedAt := none }
        (.stored id checksum, { s with rows := s.rows ++ [row] }.emit .created id userId (created contentType bytes.length))

/-- `store_upload`. -/
def storeUpload (filename contentType : String) (bytes : Bytes) (userId : String) (tenantId : Option TenantId)
    (now : Int) (found : Option String) (fault : Option StoreFault) : MediaReply × MediaState :=
  match found with
  | some id => (.stored id (env.sha256Hex bytes), s)
  | none => s.storeNew env filename contentType bytes userId tenantId now fault

/-- `presign_upload`; the URL is good for five minutes. -/
def presignUpload (filename : String) (tenantId : Option TenantId) (now : Int) : MediaReply × MediaState :=
  let id := env.ids.draw s.drawn
  let key := storageKey env id filename tenantId now
  if env.backend.presigns then
    (.presigned id key, { s with drawn := s.drawn + 1, minted := s.minted ++ [⟨key, tenantId, some (now + 300)⟩] })
  else (.unsupported, { s with drawn := s.drawn + 1 })

/-- `commit_upload`. -/
def commitUpload (id key filename contentType : String) (checksum : Option String) (userId : String)
    (tenantId : Option TenantId) (found : Option String) : MediaReply × MediaState :=
  if ownsKey tenantId key = false then (.badRequest "storage key does not belong to this tenant", s)
  else if env.backend.accepts key = false then (.badRequest "invalid storage key", s)
  else
    match s.objects key with
    | none => (.badRequest "no object at key — upload not completed?", s)
    | some bytes =>
      match found with
      | some id' => (.committed id' true, s)
      | none =>
        if id ∈ s.rows.map MediaRow.id then (.badRequest "duplicate key value", s)
        else
          let row : MediaRow :=
            { id, tenantId, filename, contentType, size := .ofNat bytes.length, storageKey := key, checksum
              uploadedBy := userId, deletedAt := none }
          (.committed id false,
            { s with rows := s.rows ++ [row] }.emit .created id userId (created contentType bytes.length))

/-- `POST /media/commit`. -/
def commit (req : CommitReq) (user : Option MediaUser) (found : Option String) : MediaReply × MediaState :=
  match user with
  | none => (.unauthorized, s)
  | some user =>
    let contentType := req.contentType.getD "application/octet-stream"
    if contentTypeAllowed contentType then
      s.commitUpload env req.id req.key (req.filename.getD "upload") contentType req.checksum user.id user.tenantId found
    else (.unsupported, s)

/-- `lookup`. -/
def lookup (id : String) : Option MediaRow :=
  s.find? MediaRow.isLive id

/-- `soft_delete`. -/
def softDelete (id actor : String) (now : Int) (removed : Bool) : Bool × MediaState :=
  match s.lookup id with
  | some row =>
    let rows := Table.update (fun row => row.id = id ∧ row.isLive) (fun row => { row with deletedAt := some now }) s.rows
    (true, ({ s with rows }.deleteObject row.storageKey removed).emit .deleted id actor [])
  | none => (false, s)

/-- `DELETE /media/{id}`. -/
def deleteMedia (id : String) (user : Option MediaUser) (now : Int) (removed : Bool) : MediaReply × MediaState :=
  match user with
  | none => (.unauthorized, s)
  | some user =>
    match s.softDelete id user.id now removed with
    | (true, s) => (.noContent, s)
    | (false, s) => (.notFound, s)

/-- `GET /media/{id}`, up to the range that is sent of the bytes. -/
def serveMedia (id : String) (user : Option MediaUser) : MediaReply :=
  match s.lookup id with
  | none => .notFound
  | some row =>
    let denied : Option MediaReply :=
      if env.privateReads then
        match user with
        | none => some .unauthorized
        | some user => if user.tenantId ≠ row.tenantId then some .forbidden else none
      else none
    match denied with
    | some reply => reply
    | none =>
      if env.backend.presigns then .redirected row.storageKey
      else
        match s.objects row.storageKey with
        | some bytes => .served row.storageKey row.contentType bytes
        | none => .notFound

/-- `purge_deleted`: the objects of the rows that its `SELECT` returns, but those of `kept`, whose deletion fails, and
then the rows. -/
def purgeDeleted (selectBefore deleteBefore : Int) (kept : List String) : MediaReply × MediaState :=
  let gone := ((s.rows.filter (·.deletedBefore selectBefore)).map MediaRow.storageKey).filter (· ∉ kept)
  let rows := s.rows.filter fun row => !row.deletedBefore deleteBefore
  (.purged (s.rows.length - rows.length),
    { s with rows, objects := fun key => if key ∈ gone then none else s.objects key })

/-- The label agrees with the table and with the presigned URLs. -/
def allows : MediaAct → Bool
  | .storeUpload _ _ bytes _ tenantId _ found _ => s.mayFind (env.sha256Hex bytes) tenantId found
  | .clientPut key _ now => s.minted.any fun m => m.key = key ∧ m.putUntil.any (now ≤ ·)
  | .commit req (some user) found =>
    match req.checksum with
    | some sum => s.mayFind sum user.tenantId found
    | none => found.isNone
  | _ => true

/-- The reply to a call, and the state after it. -/
def call : MediaAct → MediaReply × MediaState
  | .storeUpload filename contentType bytes userId tenantId now found fault =>
    s.storeUpload env filename contentType bytes userId tenantId now found fault
  | .presignUpload filename tenantId now => s.presignUpload env filename tenantId now
  | .clientPut key bytes _ => (.uploaded, s.putObject key bytes)
  | .commit req user found => s.commit env req user found
  | .deleteMedia id user now removed => s.deleteMedia id user now removed
  | .serveMedia id user => (s.serveMedia env id user, s)
  | .purgeDeleted selectBefore deleteBefore kept => s.purgeDeleted selectBefore deleteBefore kept

end MediaState

/-- Any calls of any users, from the empty table on; a label has the reply in it. -/
def media (env : MediaEnv) : LabelledSystem MediaState (MediaAct × MediaReply) where
  init s := s = .empty
  step s a t := s.allows env a.1 = true ∧ s.call env a.1 = (a.2, t)

theorem media_step_unique {env : MediaEnv} {s t t' : MediaState} {a : MediaAct × MediaReply}
    (h : (media env).step s a t) (h' : (media env).step s a t') : t = t' :=
  congrArg Prod.snd (h.2.symm.trans h'.2)

end Atomo.Media
