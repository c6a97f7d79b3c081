import IoxCore.Lib.Path

/-!
# The parquet cache's local store

`LocalStore` (parquet_cache/src/server/data/store.rs) keeps cached objects as files under one
directory, and `WriteHandler::write_local` (server/data/writes.rs) fills it from the direct
object store.

* `local_path(location)` is `dir.join(location)`.
* `write_object` refuses a location that starts with `/`, then creates the parent directories
  and the file (sized to the write hint), writes the incoming chunks, and deletes the file again
  if a chunk is an error.
* `read_object` and `delete_object` refuse a location that starts with `/`, then open
  `dir.join(location)`; a delete removes the file and then its directory if that is empty.
* `move_file_to_cache` (used when the direct store hands over a local file) creates the parent
  directories of `dir.join(location)` and renames the file there; it does not check for a
  leading `/`.
* `write_local` fetches the object, compares its size with the hint's `file_size_bytes`, and
  stores the payload with one of the two calls above.

## The model

Every filesystem call is recorded, with the paths it names, as an `FsCall`; a store operation
returns its calls in order with its result. Calls are taken to succeed, so the trace is every
call the code makes on the way to the result. File contents are not modelled: a read returns no
data, and a write records the chunk it writes. The direct object store is a function from the
location to its answer. Of `ObjectMeta` only `size` is kept, and of the write hint only
`file_size_bytes`, the fields these functions read.
-/

namespace IoxCore.ParquetCache

open Posix

/-- A filesystem call of the local store. -/
inductive FsCall
  /-- `create_dir_all`. -/
  | createDirAll (path : String)
  /-- `File::create`, then `set_len`. -/
  | create (path : String) (len : ℕ)
  /-- `write_all` of one chunk of the incoming stream. -/
  | write (path : String) (bytes : List UInt8)
  /-- `std::fs::rename`. -/
  | rename (src dst : String)
  /-- `File::open`. -/
  | openFile (path : String)
  /-- `remove_file`. -/
  | removeFile (path : String)
  /-- `remove_dir`, which the code calls when `read_dir` finds the directory empty. -/
  | removeDirIfEmpty (path : String)
  deriving DecidableEq, Repr

/-- The path that a call creates, writes, renames a file to, reads or deletes. -/
def FsCall.target : FsCall → String
  | .createDirAll p | .create p _ | .write p _ | .openFile p | .removeFile p
  | .removeDirIfEmpty p => p
  | .rename _ dst => dst

/-- `std::io::Error`, by its message. -/
structure IoError where
  message : String
  deriving DecidableEq, Repr

/-- An operation's filesystem calls, in order, and its result. -/
abbrev Traced (ε α : Type) := List FsCall × Except ε α

/-- `LocalStore`. -/
structure LocalStore where
  dir : String

/-- `LocalStore::new`: the configured directory, `/tmp` by default. -/
def LocalStore.new (path : Option String) : LocalStore := ⟨path.getD "/tmp"⟩

/-- `LocalStore::local_path`. -/
def LocalStore.localPath (s : LocalStore) (location : String) : String := join s.dir location

/-- The error of `write_object`, `read_object` and `delete_object` for a location
that starts with `/`. -/
def absolutePathError : IoError := ⟨"object location cannot be an absolute path"⟩

/-- `AsyncStoreObject::new`: `create_dir_all` of the parent (of the path itself
when it has none), `File::create`, and `set_len(size as u64)`. -/
def AsyncStoreObject.new (path : String) (size : ℤ) : List FsCall :=
  [.createDirAll ((parent path).getD path), .create path (size % 2 ^ 64).toNat]

/-- `AsyncStoreObject::delete`: removes the file, then its directory if empty. -/
def AsyncStoreObject.delete (path : String) : List FsCall :=
  [.removeFile path, .removeDirIfEmpty ((parent path).getD path)]

/-- `LocalStore::move_file_to_cache`. -/
def LocalStore.moveFileToCache (s : LocalStore) (src location : String) : Traced IoError Unit :=
  let dst := s.localPath location
  match parent dst with
  | none => ([], .error ⟨"object location is not valid"⟩)
  | some p => ([.createDirAll p, .rename src dst], .ok ())

/-- The loop of `write_object` over the incoming stream; `none` is an error item,
on which the file is deleted. -/
def writeStream (path : String) : List (Option (List UInt8)) → Traced IoError Unit
  | [] => ([], .ok ())
  | none :: _ => (AsyncStoreObject.delete path, .error ⟨"error reading incoming byte stream"⟩)
  | some b :: rest => (.write path b :: (writeStream path rest).1, (writeStream path rest).2)

/-- `LocalStore::write_object`. -/
def LocalStore.writeObject (s : LocalStore) (location : String) (size : ℤ)
    (stream : List (Option (List UInt8))) : Traced IoError Unit :=
  if isAbsolute location then ([], .error absolutePathError)
  else
    let path := s.localPath location
    (AsyncStoreObject.new path size ++ (writeStream path stream).1, (writeStream path stream).2)

/-- `LocalStore::read_object`; the stream of the file's contents is not modelled. -/
def LocalStore.readObject (s : LocalStore) (location : String) : Traced IoError Unit :=
  if isAbsolute location then ([], .error absolutePathError)
  else ([.openFile (join s.dir location)], .ok ())

/-- `LocalStore::delete_object`. -/
def LocalStore.deleteObject (s : LocalStore) (location : String) : Traced IoError Unit :=
  if isAbsolute location then ([], .error absolutePathError)
  else (.openFile (join s.dir location) :: AsyncStoreObject.delete (join s.dir location), .ok ())

/-! ### The direct store and `write_local` -/

/-- `ObjectMeta`, by its size. -/
structure ObjectMeta where
  size : ℕ
  deriving DecidableEq, Repr

/-- `GetResultPayload`: a local file, or a stream of chunks (`none` is an error item). -/
inductive GetResultPayload
  | file (path : String)
  | stream (chunks : List (Option (List UInt8)))
  deriving DecidableEq, Repr

/-- `GetResult`. -/
structure GetResult where
  metadata : ObjectMeta
  payload : GetResultPayload
  deriving DecidableEq, Repr

/-- `object_store::Error`: not found, or any other error, by its message. -/
inductive StoreError
  | notFound
  | other (message : String)
  deriving DecidableEq, Repr

/-- The direct object store's `get`. -/
abbrev DirectStore := String → Except StoreError GetResult

/-- `DataError`. -/
inductive DataError
  | read (message : String)
  | stream (message : String)
  | file (message : String)
  | badRequest (message : String)
  | doesNotExist
  deriving DecidableEq, Repr

/-- `WriteHint` (`ObjectParams`), by the field that `write_local` reads. -/
structure WriteHint where
  fileSizeBytes : ℤ
  deriving DecidableEq, Repr

/-- `usize as i64`. -/
def asI64 (n : ℕ) : ℤ :=
  if n % 2 ^ 64 < 2 ^ 63 then (n % 2 ^ 64 : ℕ) else (n % 2 ^ 64 : ℕ) - 2 ^ 64

/-- Maps the error of a traced operation. -/
def Traced.mapError {ε ε' α : Type} (f : ε → ε') (t : Traced ε α) : Traced ε' α :=
  (t.1, t.2.mapError f)

/-- `WriteHandler::write_local`. -/
def writeLocal (cache : LocalStore) (store : DirectStore) (location : String)
    (hint : WriteHint) : Traced DataError ObjectMeta :=
  match store location with
  | .error .notFound => ([], .error .doesNotExist)
  | .error (.other m) => ([], .error (.stream m))
  | .ok ⟨metadata, payload⟩ =>
    if asI64 metadata.size ≠ hint.fileSizeBytes then
      ([], .error (.badRequest "failed to perform writeback due to file size mismatch"))
    else
      let stored : Traced DataError Unit :=
        match payload with
        | .file src => (cache.moveFileToCache src location).mapError (DataError.file ·.message)
        | .stream chunks =>
          (cache.writeObject location hint.fileSizeBytes chunks).mapError
            (DataError.stream ·.message)
      (stored.1, stored.2.map fun _ => metadata)

/-- `ReadHandler::read_local`. -/
def readLocal (cache : LocalStore) (location : String) : Traced DataError Unit :=
  (cache.readObject location).mapError (DataError.read ·.message)

end IoxCore.ParquetCache
