import IoxCore.ParquetCache.LocalStore
import IoxCore.ParquetFile.Path

/-!
# The parquet cache's data service

`DataService` (parquet_cache/src/server/data.rs) answers three requests.

* `GET /metadata?location=..` and `GET /object?location=..`: when the location is in the cache
  manager, the first answers the stored metadata and the second streams the file through
  `read_object`. Otherwise the answer is `CacheMiss`, and a write-back task is spawned:
  `create_write_hint` looks the location's object store id up in the catalog, and `write_back`
  fills the cache.
* `POST /write-hint` with a body holding a location and a write hint: when the location is not
  cached, `write_back` runs at once.

`write_back` "confirms the valid location" with `ParquetFilePath::try_from`, stores the object
with `write_local`, and inserts the location into the cache manager. When the cache manager
evicts a key, its listener sends the key on a channel, and a background task calls
`delete_object` for each key it receives.

## The model

The service is a state machine: the cache manager's keys with their metadata, the keys sent on
the eviction channel and not yet received, and the locations of the spawned write-back tasks
that have not yet run. An `Event` is a request, one spawned task running, the cache evicting a
key, or the eviction task taking the next key. The catalog is a parameter
(`get_by_object_store_id`, retried until it answers, then `WriteHint::from`), as is the direct
store. The query string and the JSON body are given decoded: a missing location parameter is
`none`, and a body that serde rejects is serde's error. Any cached key may be evicted at any
time, which covers every eviction policy.
-/

namespace IoxCore.ParquetCache

open Posix ParquetFile

/-- The body of `POST /write-hint`, by the fields the service reads. -/
structure WriteHintRequestBody where
  location : String
  hint : WriteHint
  deriving DecidableEq, Repr

/-- The requests that reach `DataService::call`. -/
inductive Request
  /-- `GET /metadata`, with its decoded `location` parameter. -/
  | metadata (location : Option String)
  /-- `GET /object`, with its decoded `location` parameter. -/
  | object (location : Option String)
  /-- `POST /write-hint`, with its body as serde decodes it (or serde's error). -/
  | writeHint (body : Except String WriteHintRequestBody)
  deriving DecidableEq, Repr

/-- `Response`. -/
inductive Response
  | head (metadata : ObjectMeta)
  | data
  | written
  deriving DecidableEq, Repr

/-- The server's `Error`. -/
inductive Error
  | cacheMiss
  | badRequest (message : String)
  | badPath (e : PathError)
  | doesNotExist
  | data (e : DataError)
  deriving DecidableEq, Repr

/-- The service: its local store, the direct store and the catalog. -/
structure DataService where
  cache : LocalStore
  directStore : DirectStore
  catalog : ℕ → Option WriteHint

/-- The mutable state of the service and its background tasks. -/
structure State where
  /-- The cache manager's keys, with the metadata `GET /metadata` answers. -/
  cached : List (String × ObjectMeta)
  /-- Keys sent on the eviction channel and not yet deleted. -/
  evictions : List String
  /-- Locations of spawned write-back tasks that have not run yet. -/
  pending : List String
  deriving DecidableEq, Repr

/-- The state of a new service. -/
def State.init : State := ⟨[], [], []⟩

/-- `CacheManager::in_cache`, with the metadata of `fetch_metadata`. -/
def State.lookup (s : State) (location : String) : Option ObjectMeta :=
  (s.cached.find? (·.1 == location)).map (·.2)

/-- `CacheManager::insert`: `entry(k).or_insert(v)` keeps an existing entry. -/
def State.insert (s : State) (location : String) (metadata : ObjectMeta) : State :=
  match s.lookup location with
  | some _ => s
  | none => { s with cached := s.cached ++ [(location, metadata)] }

/-- `DataService::create_write_hint`. -/
def DataService.createWriteHint (svc : DataService) (location : String) :
    Except Error WriteHint :=
  match ParquetFilePath.tryFrom location with
  | .error e => .error (.badPath e)
  | .ok f =>
    match svc.catalog f.objectStoreId with
    | none => .error .doesNotExist
    | some hint => .ok hint

/-- `DataService::write_back`. -/
def DataService.writeBack (svc : DataService) (s : State) (location : String)
    (hint : WriteHint) : State × Traced Error Unit :=
  match ParquetFilePath.tryFrom location with
  | .error e => (s, [], .error (.badPath e))
  | .ok _ =>
    let (calls, r) := writeLocal svc.cache svc.directStore location hint
    match r with
    | .error e => (s, calls, .error (.data e))
    | .ok metadata => (s.insert location metadata, calls, .ok ())

/-- `DataService::call`. -/
def DataService.call (svc : DataService) (s : State) :
    Request → State × Traced Error Response
  | .metadata none | .object none =>
    (s, [], .error (.badRequest "missing required query parameter: location"))
  | .metadata (some location) =>
    match s.lookup location with
    | some metadata => (s, [], .ok (.head metadata))
    | none => ({ s with pending := s.pending ++ [location] }, [], .error .cacheMiss)
  | .object (some location) =>
    match s.lookup location with
    | some _ =>
      let (calls, r) := readLocal svc.cache location
      (s, calls, (r.mapError Error.data).map fun _ => .data)
    | none => ({ s with pending := s.pending ++ [location] }, [], .error .cacheMiss)
  | .writeHint (.error m) => (s, [], .error (.badRequest m))
  | .writeHint (.ok body) =>
    match s.lookup body.location with
    | some _ => (s, [], .ok .written)
    | none =>
      let (s', calls, r) := svc.writeBack s body.location body.hint
      (s', calls, r.map fun _ => .written)

/-- The spawned write-back task for a cache miss; its errors are only logged. -/
def DataService.runWriteBack (svc : DataService) (s : State) (location : String) :
    State × List FsCall :=
  match svc.createWriteHint location with
  | .error _ => (s, [])
  | .ok hint =>
    let (s', calls, _) := svc.writeBack s location hint
    (s', calls)

/-- What can happen next in the service and its tasks. -/
inductive Event
  /-- A request arrives. -/
  | request (r : Request)
  /-- The spawned write-back task at this position of `pending` runs. -/
  | spawned (i : ℕ)
  /-- The cache manager evicts a key; its listener sends it on the channel. -/
  | evict (location : String)
  /-- The eviction task receives the next key and deletes its file. -/
  | evictTask
  deriving DecidableEq, Repr

/-- One event: the next state and the filesystem calls made. -/
def DataService.step (svc : DataService) (s : State) : Event → State × List FsCall
  | .request r =>
    let (s', calls, _) := svc.call s r
    (s', calls)
  | .spawned i =>
    match s.pending[i]? with
    | none => (s, [])
    | some location => svc.runWriteBack { s with pending := s.pending.eraseIdx i } location
  | .evict location =>
    match s.lookup location with
    | none => (s, [])
    | some _ =>
      ({ s with cached := s.cached.filter (·.1 != location),
                evictions := s.evictions ++ [location] }, [])
  | .evictTask =>
    match s.evictions with
    | [] => (s, [])
    | location :: rest => ({ s with evictions := rest }, (svc.cache.deleteObject location).1)

/-- A run of events: the final state and every filesystem call, in order. -/
def DataService.run (svc : DataService) : State → List Event → State × List FsCall
  | s, [] => (s, [])
  | s, e :: es =>
    let (s', calls) := svc.step s e
    let (s'', rest) := svc.run s' es
    (s'', calls ++ rest)

/-- A location whose fourth segment is `<uuid>.parquet`, followed by `..` segments. -/
def traversalLocation : String :=
  "0/0/p/00000000-0000-0000-0000-000000000000.parquet/../../../../../x"

/-- A service on the default directory whose direct store answers every `get`
with an empty stream of size 0, and whose catalog knows no file. -/
def emptyStoreService : DataService :=
  ⟨LocalStore.new none, fun _ => .ok ⟨⟨0⟩, .stream []⟩, fun _ => none⟩

/-- A `POST /write-hint` with `traversalLocation` passes `try_from`, and the
service creates the file `dir.join(location)`, which resolves outside the cache
directory (`/tmp`, the default). -/
theorem write_hint_creates_file_outside_dir :
    (segments traversalLocation.toList).length = 10 ∧
      ParquetFilePath.tryFrom traversalLocation = .ok ⟨0, 0, "p", 0⟩ ∧
      emptyStoreService.call State.init (.writeHint (.ok ⟨traversalLocation, ⟨0⟩⟩)) =
        (⟨[(traversalLocation, ⟨0⟩)], [], []⟩,
          [.createDirAll "/tmp/0/0/p/00000000-0000-0000-0000-000000000000.parquet/../../../../..",
           .create (join "/tmp" traversalLocation) 0], .ok .written) ∧
      resolve (join "/tmp" traversalLocation) = ["x"] ∧
      ¬ within "/tmp" (join "/tmp" traversalLocation) := by
  decide +kernel

end IoxCore.ParquetCache
