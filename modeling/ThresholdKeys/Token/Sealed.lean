import ThresholdKeys.Host
import ThresholdKeys.Sealing.Box
import ThresholdKeys.Sealing.Scrypt
import ThresholdKeys.Token.Records

/-!
# Tokens in sealed files

A token whose records are kept in a file, sealed under a key derived from a PIN. The file is a salt
of 32 octets, a nonce of 12 and the sealed records. Every change seals all records anew under a
fresh nonce and replaces the file as a whole; if that fails, the file stays as it was and the change
of the records is undone.
-/

namespace ThresholdKeys

/-- A path for the file of a token, on a machine: what stands there, whether its directory exists,
which of the coming replacements the machine will refuse (those beyond the list it will not), and
the random octets of the machine. -/
structure Drive where
  node : Node
  inDirectory : Bool
  refusals : List Bool
  supply : Supply

namespace Drive

/-- Replaces the file as a whole, if nothing is in the way; whether it did. -/
def replace (d : Drive) (content : Bytes) : Bool × Drive :=
  let refused := d.refusals.headD false
  let d := { d with refusals := d.refusals.tail }
  if refused || !d.inDirectory || d.node = .directory then (false, d)
  else (true, { d with node := .file content })

end Drive

/-- The octets of a salt. -/
def saltLength : Nat := 32

/-- The octets of a nonce. -/
def nonceLength : Nat := 12

/-- The key that belongs to a PIN and a salt. -/
def pinKey (pin salt : Bytes) : Bytes := scrypt pin salt 14 8 32

/-- A token in a file: the records as they are in the file, the key, its salt and the drive. -/
structure SealedToken where
  id : String
  records : Records
  key : Bytes
  salt : Bytes
  drive : Drive

namespace SealedToken

/-- The content of a file that holds records. -/
def fileContent (key salt nonce : Bytes) (records : Records) : Bytes :=
  salt ++ nonce ++ sealBox key nonce records.toDer

/-- The records in the content of a file. A box that does not open means that the PIN is wrong. -/
def readContent (key content : Bytes) : Outcome TokenError Records :=
  let nonce := (content.drop saltLength).take nonceLength
  match openBox? key nonce (content.drop (saltLength + nonceLength)) with
  | none => .error .pinRejected
  | some der => (Records.ofDer der).mapError fun _ => TokenError.corrupted

/-- Opens the token on a drive; where there is no file, or an empty one, it is a new token with a
random salt. -/
def unlock (id : String) (pin : Bytes) (drive : Drive) : Outcome TokenError SealedToken :=
  match drive.node with
  | .directory => .error .storage
  | .absent | .file [] =>
    let (salt, supply) := drive.supply.take saltLength
    .ok ⟨id, [], pinKey pin salt, salt, { drive with supply := supply }⟩
  | .file content =>
    if content.length < saltLength + nonceLength then .error .corrupted
    else do
      let salt := content.take saltLength
      let key := pinKey pin salt
      let records ← readContent key content
      return ⟨id, records, key, salt, drive⟩

/-- Seals the records under a fresh nonce and replaces the file by them. -/
def save : Proc SealedToken TokenError Unit := fun _ t =>
  let (nonce, supply) := t.drive.supply.take nonceLength
  match { t.drive with supply := supply }.replace (fileContent t.key t.salt nonce t.records) with
  | (true, drive) => ⟨.ok (), { t with drive := drive }, []⟩
  | (false, drive) => ⟨.error .storage, { t with drive := drive }, []⟩

/-- Changes the records and saves them; a change that cannot be saved is undone. -/
def commit (change undo : Records → Records) : Proc SealedToken TokenError Unit := do
  modify fun t => { t with records := change t.records }
  try save
  catch e => do
    modify fun t => { t with records := undo t.records }
    throw e

/-- Stores a blob, and takes it out again if it cannot be saved. -/
def store (r : Record) : Proc SealedToken TokenError Unit := do
  let t ← get
  match t.records.lookup? r.identifier with
  | some _ => throw .alreadyExists
  | none => commit (Records.insert r) (Records.erase · r.identifier)

/-- Reads a blob. -/
def read (tag identifier : Bytes) : Proc SealedToken TokenError IndexedBlob := do
  let t ← get
  t.records.get tag identifier

/-- Removes a blob, and puts it back if that cannot be saved; whether there was one. -/
def remove (tag identifier : Bytes) : Proc SealedToken TokenError Bool := do
  let t ← get
  match t.records.lookup? identifier with
  | none => return false
  | some r =>
    if r.tag = tag then do
      commit (Records.erase · identifier) (Records.insert r)
      return true
    else throw .wrongTag

end SealedToken

end ThresholdKeys
