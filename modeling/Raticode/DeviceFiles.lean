import Raticode.DeviceStore
import Raticode.SealedRecords

/-! `gofer.devices.files`: rows of the database, and for each of them a file on disk that
holds the bytes as sealed records. The files are no part of a transaction. -/
namespace Raticode.Device
open PyDocument Attempt

def fileChunk : ℕ := 16 * 1024

def fileNonce : ℕ := 12

def fileTag : ℕ := 16

def maxTotal : ℕ := 4000000000

def maxFiles : ℕ := 128

def freeSpaceMargin : ℕ := 256 * 1024 * 1024

def storedSize (size : ℕ) : ℕ := (size + fileChunk - 1) / fileChunk * (fileNonce + fileTag) + size

structure Vault where
  encrypt : Bytes → Bytes → Str → Bytes
  decrypt : Bytes → Bytes → Str → Option Bytes
  token : ℕ → Bytes
  sha256 : Bytes → Str
  /-- `json.dumps(offer, sort_keys=True)` of the offer of a snapshot. -/
  offerText : Str → Str → ℕ → Str → ℤ → Bytes
  decrypt_encrypt : ∀ nonce raw associated,
    decrypt nonce (encrypt nonce raw associated) associated = some raw
  encrypt_length : ∀ nonce raw associated,
    (encrypt nonce raw associated).length = raw.length + fileTag
  token_length : ∀ n, (token n).length = fileNonce

structure Offer where
  fileId : Str
  size : ℤ
  sha256 : Str
  expiresAt : ℚ
  text : Bytes
  deriving DecidableEq

inductive FileState where
  | receiving | available | failed
  deriving DecidableEq, Repr

/-- A row of `device_files`. -/
structure FileRow where
  peer : Str
  id : Str
  thread : Str
  offer : Offer
  size : ℕ
  expires : ℚ
  state : FileState
  received : ℕ

/-- The payload of `file.chunk`. -/
structure FileChunk where
  fileId : Str
  offset : ℤ
  data : Str
  eof : Bool

structure FileStatus where
  fileId : Str
  state : FileState
  received : ℕ

structure FileStore where
  rows : List FileRow
  disk : Str → Str → Option Bytes
  drawn : ℕ

abbrev FileTx := EStateM Fault FileStore

/-! Records. -/
section Records

/-- `os.pwrite`: a gap before the offset is filled with zeros. -/
def pwrite (content data : Bytes) (offset : ℕ) : Bytes :=
  content.take offset ++ List.replicate (offset - content.length) 0 ++ data ++
    content.drop (offset + data.length)

def ftruncate (content : Bytes) (length : ℕ) : Bytes :=
  content.take length ++ List.replicate (length - content.length) 0

def pread (content : Bytes) (length offset : ℕ) : Bytes := SealedRecords.slice content offset length

def recordSize : ℕ := fileNonce + fileChunk + fileTag

/-- `_aad`. -/
def recordData (peer id : Str) (index : ℕ) : Str :=
  peer ++ text ":file:" ++ id ++ text ":record:" ++ text (toString index)

variable (v : Vault) (peer id : Str)

/-- `_write_record`, with the nonce that is drawn. -/
def writeRecord (content : Bytes) (index : ℕ) (raw nonce : Bytes) : Bytes :=
  let sealed := nonce ++ v.encrypt nonce raw (recordData peer id index)
  ftruncate (pwrite content sealed (index * recordSize)) (index * recordSize + sealed.length)

def readRecord (content : Bytes) (index length : ℕ) : Except Fault Bytes :=
  let sealed := pread content recordSize (index * recordSize)
  match v.decrypt (sealed.take fileNonce) (sealed.drop fileNonce) (recordData peer id index) with
  | none => .error (.pairing "file_integrity")
  | some raw => if raw.length < length then .error (.pairing "file_integrity") else .ok (raw.take length)

/-- `range(0, len(pending), CHUNK)`, in chunks. -/
def positions (length : ℕ) : List ℕ := List.range ((length + fileChunk - 1) / fileChunk)

def writeRecords (index : ℕ) (pending : Bytes) (content : Bytes) (drawn : ℕ) : Bytes × ℕ :=
  (positions pending.length).foldl (fun (c : Bytes × ℕ) position =>
    (writeRecord v peer id c.1 (index + position)
      (SealedRecords.slice pending (position * fileChunk) fileChunk) (v.token c.2), c.2 + 1))
    (content, drawn)

/-- `_records`, joined. -/
def readRecords (content : Bytes) (size : ℕ) : Except Fault Bytes :=
  ((positions size).mapM (fun index =>
    readRecord v peer id content index (min fileChunk (size - index * fileChunk)))).map List.flatten

/-- `_digest`. -/
def recordsDigest (content : Bytes) (size : ℕ) : Except Fault Str :=
  (readRecords v peer id content size).map v.sha256

/-- The reads of `_slice`. -/
def readSlice (content : Bytes) (committed offset length : ℕ) : Except Fault Bytes :=
  let first := offset / fileChunk
  ((List.range ((offset + length - 1) / fileChunk + 1 - first)).mapM (fun position =>
    readRecord v peer id content (first + position)
      (min fileChunk (committed - (first + position) * fileChunk)))).map
    (fun parts => SealedRecords.slice parts.flatten (offset - first * fileChunk) length)

end Records

/-- The bytes of a chunk in `urlsafe` base64 without padding. -/
def decodeChunk (data : Str) : Option Bytes :=
  match b64decode data with
  | none => none
  | some raw => if fileChunk < raw.length || urlsafeB64encode raw ≠ data then none else some raw

namespace FileStore

def isRow (peer id : Str) (row : FileRow) : Bool := row.peer = peer && row.id = id

def isRowOf (peer thread id : Str) (row : FileRow) : Bool := isRow peer id row && row.thread = thread

def hasRow (f : FileStore) (peer id : Str) : Bool := f.rows.any (isRow peer id)

def setDisk (f : FileStore) (peer id : Str) (content : Option Bytes) : FileStore :=
  { f with disk := fun p i => if p = peer ∧ i = id then content else f.disk p i }

def unlink (f : FileStore) (peer id : Str) : FileStore := f.setDisk peer id none

def sweep (f : FileStore) : FileStore :=
  { f with disk := fun p i => if f.hasRow p i then f.disk p i else none }

/-- `_expire`, at a reading of the clock. -/
def expire (now : ℚ) (f : FileStore) : FileStore :=
  let gone := f.rows.filter (fun row => row.expires ≤ now)
  let f := gone.foldl (fun f row => f.unlink row.peer row.id) f
  sweep { f with rows := f.rows.filter (fun row => now < row.expires) }

def expires (now : ℚ) : FileTx Unit := do
  let f ← peek
  put (f.expire now)

def raise {α : Type} (code : String) : FileTx α := fail (.pairing code)

/-- `_open_records` of a file that has to be there. -/
def openRecords (peer id : Str) : FileTx Bytes := do
  let f ← peek
  match f.disk peer id with
  | some content => pure content
  | none => fail .os

/-- `_reserve`, with the free space of the disk. -/
def reserve (free size : ℕ) : FileTx Unit := do
  let f ← peek
  if maxFiles ≤ f.rows.length || maxTotal < (f.rows.map FileRow.size).sum + size then
    raise "file_quota"
  else if free < storedSize size + freeSpaceMargin then raise "file_disk_full"
  else pure ()

/-- `INSERT INTO device_files`. -/
def insert (row : FileRow) : FileTx Unit := do
  let f ← peek
  if f.hasRow row.peer row.id then fail .integrity else put { f with rows := f.rows ++ [row] }

/-- `_open_records(…, create=True)` and `os.ftruncate(fd, 0)`. -/
def create (peer id : Str) : FileTx Unit := do
  let f ← peek
  put (f.setDisk peer id (some (ftruncate ((f.disk peer id).getD []) 0)))

def offer (now : ℚ) (free : ℕ) (peer thread : Str) (o : Offer) (limit : ℕ) : FileTx Unit := do
  expires now
  let f ← peek
  match f.rows.find? (isRow peer o.fileId) with
  | some row =>
    if row.thread ≠ thread || row.offer.text ≠ o.text then raise "file_offer_conflict" else pure ()
  | none =>
    if !(now < o.expiresAt && o.expiresAt ≤ now + 86400) || !(0 ≤ o.size && o.size ≤ limit) then
      raise "file_offer_bounds"
    else do
      reserve free o.size.toNat
      insert ⟨peer, o.fileId, thread, o, o.size.toNat, o.expiresAt, .receiving, 0⟩
      create peer o.fileId

variable (v : Vault)

def slice (peer id : Str) (committed offset length : ℕ) : FileTx Bytes :=
  if length = 0 then pure []
  else do
    let content ← openRecords peer id
    lift (readSlice v peer id content committed offset length)

/-- `UPDATE device_files SET state=?,received=?`. -/
def setRow (f : FileStore) (peer id : Str) (state : FileState) (received : ℕ) : FileStore :=
  { f with rows := f.rows.map (fun row => if isRow peer id row then { row with state, received } else row) }

def finish (row : FileRow) (eof : Bool) (content : Bytes) (received : ℕ) : Except Fault FileState :=
  if !eof then .ok .receiving
  else if received ≠ row.size then .error (.pairing "file_integrity")
  else do
    let digest ← recordsDigest v row.peer row.id content row.size
    if digest ≠ row.offer.sha256 then .error (.pairing "file_integrity") else .ok .available

def readTail (row : FileRow) (content : Bytes) : Except Fault Bytes :=
  let start := row.received % fileChunk
  if start = 0 then .ok []
  else readRecord v row.peer row.id content (row.received / fileChunk) start

/-- What `receive` does with a chunk that comes next. -/
def append (row : FileRow) (raw : Bytes) (eof : Bool) : FileTx FileStatus := do
  let content ← openRecords row.peer row.id
  let tail ← lift (readTail v row content)
  let f ← peek
  let (content, drawn) := writeRecords v row.peer row.id (row.received / fileChunk) (tail ++ raw)
    content f.drawn
  put { f.setDisk row.peer row.id (some content) with drawn }
  let received := row.received + raw.length
  let state ← lift (finish v row eof content received)
  let f ← peek
  put (f.setRow row.peer row.id state received)
  pure ⟨row.id, state, received⟩

def receive (now : ℚ) (peer thread : Str) (payload : FileChunk) : FileTx FileStatus := do
  expires now
  let f ← peek
  match f.rows.find? (isRowOf peer thread payload.fileId) with
  | none => raise "file_unavailable"
  | some row =>
    match decodeChunk payload.data with
    | none => raise "file_chunk_encoding"
    | some raw =>
      if row.state = .available || payload.offset < row.received then
        if !(0 ≤ payload.offset && payload.offset ≤ row.received) ||
            row.received < payload.offset + raw.length then
          raise "file_chunk_conflict"
        else do
          let bytes ← slice v peer payload.fileId row.received payload.offset.toNat raw.length
          if bytes ≠ raw then raise "file_chunk_conflict"
          else pure ⟨payload.fileId, row.state, row.received⟩
      else if row.state ≠ .receiving || payload.offset ≠ row.received ||
          row.size < payload.offset + raw.length || (raw.isEmpty && !payload.eof) then
        raise "file_chunk_offset"
      else append v row raw payload.eof

def available (now : ℚ) (peer thread id : Str) : FileTx FileRow := do
  expires now
  let f ← peek
  match f.rows.find? (fun row => isRowOf peer thread id row && row.state = .available) with
  | none => raise "file_unavailable"
  | some row => pure row

def chunk (now : ℚ) (peer thread id : Str) (offset : ℤ) : FileTx (Offer × Bytes) := do
  let row ← available now peer thread id
  if !(0 ≤ offset && offset ≤ row.size) then raise "file_chunk_offset"
  else do
    let bytes ← slice v peer id row.size offset.toNat (min fileChunk (row.size - offset.toNat))
    pure (row.offer, bytes)

def content (now : ℚ) (peer thread id : Str) (limit : ℕ) : FileTx (Offer × Bytes) := do
  let row ← available now peer thread id
  if limit < row.size then raise "file_too_large"
  else do
    let records ← openRecords peer id
    let data ← lift (readRecords v peer id records row.size)
    if v.sha256 data ≠ row.offer.sha256 then raise "file_integrity" else pure (row.offer, data)

def cancel (now : ℚ) (peer thread id : Str) : FileTx Unit := do
  let f ← peek
  let rest := { f with rows := f.rows.filter (fun row => !isRowOf peer thread id row) }
  put (if f.rows.any (isRowOf peer thread id) then rest.unlink peer id else rest)
  expires now

structure Source where
  name : Str
  size : ℕ
  bytes : Bytes

/-- The part of `snapshot` that copies. -/
def copy (peer id : Str) (source : Source) : FileTx Unit := do
  create peer id
  let f ← peek
  let (content, drawn) := writeRecords v peer id 0 source.bytes [] f.drawn
  put { f.setDisk peer id (some content) with drawn }
  if source.bytes.length ≠ source.size then do
    let f ← peek
    put (f.unlink peer id)
    raise "scoped_file_unavailable"
  else pure ()

/-- `snapshot` under an identifier that was drawn. There is no source where the path leaves
its root, is no regular file or is too large. Every failure up to the copy is the same. -/
def snapshot (now : ℚ) (free : ℕ) (peer thread id : Str) (source : Option Source) : FileTx Offer :=
  match source with
  | none => raise "scoped_file_unavailable"
  | some source => do
    expires now
    let f ← peek
    match reserve free source.size f with
    | .error _ _ => raise "scoped_file_unavailable"
    | .ok _ _ => do
      copy v peer id source
      let digest := v.sha256 source.bytes
      let offer : Offer := ⟨id, source.size, digest, (now.floor : ℚ) + 3600,
        v.offerText id source.name source.size digest (now.floor + 3600)⟩
      insert ⟨peer, id, thread, offer, source.size, offer.expiresAt, .available, source.size⟩
      pure offer

end FileStore

end Raticode.Device
