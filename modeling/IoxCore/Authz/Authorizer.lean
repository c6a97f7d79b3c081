import IoxCore.Lib.Except
import Mathlib.Data.List.Basic

/-!
# The IOx authorizer client

`authz::IoxAuthorizer` (`authz/src/iox_authorizer.rs`) asks the authorization service whether a
token carries a list of requested permissions, over the `influxdata.iox.authz.v1` protocol. The
request carries the requested permissions in their protobuf form (those that do not convert are
dropped); the response says whether the token is valid and lists permissions, which the client
converts back (dropping those that do not convert) and returns.

The `Authorizer` trait documents the contract: "The returned list of permissions is the
intersection of the permissions requested and the permissions associated with the token". The
protocol documents the response's list as "the set of permissions associated with the token".

## The model

The service is a parameter `authorize : AuthorizeRequest → Except Status AuthorizeResponse`.
Protobuf enumerations are the `i32` values prost stores, with the generated `TryFrom<i32>`
conversions. The response's `subject` is never read and is left out, and so is the `warn!`.

What is proved: a missing token fails with `NoToken` whatever the service is; an `Ok` needs a
valid token and a non-empty list, every element of which the service listed; a permission
survives the trip to protobuf and back, so that against the repository's test service
(`test_helpers_end_to_end/src/authz.rs`), which filters the request's permissions by the
token's, the result is exactly the intersection. Against a service that lists a permission that
was not requested, the client returns it, and `do_get` of the flight service grants the request.
-/

namespace IoxCore.Authz

/-- `Action`: the operation attempted on a resource. -/
inductive Action where
  | create
  | delete
  | read
  | readSchema
  | write
  deriving DecidableEq, Repr

/-- `Resource`: the object a request is trying to access. -/
inductive Resource where
  /-- A named IOx database. -/
  | database (name : String)
  deriving DecidableEq, Repr

/-- `Permission`: a resource and an action on it. -/
inductive Permission where
  | resourceAction (r : Resource) (a : Action)
  deriving DecidableEq, Repr

/-- `IncompatiblePermissionError`: a permission that cannot be converted. -/
structure IncompatiblePermissionError where
  deriving DecidableEq, Repr

namespace Proto

/-- `resource_action_permission::ResourceType`. -/
inductive ResourceType where
  | unspecified
  | database
  deriving DecidableEq, Repr

/-- `resource_action_permission::Action`. -/
inductive Action where
  | unspecified
  | readSchema
  | read
  | write
  | create
  | delete
  deriving DecidableEq, Repr

/-- The generated `TryFrom<i32> for ResourceType`: the values of `authz.proto`. -/
def ResourceType.tryFrom : Int → Option ResourceType
  | 0 => some .unspecified
  | 1 => some .database
  | _ => none

/-- The generated `TryFrom<i32> for Action`: the values of `authz.proto`. -/
def Action.tryFrom : Int → Option Action
  | 0 => some .unspecified
  | 1 => some .readSchema
  | 2 => some .read
  | 3 => some .write
  | 4 => some .create
  | 5 => some .delete
  | _ => none

/-- The `i32` prost stores for a `ResourceType` (`rt as i32`). -/
def ResourceType.toI32 : ResourceType → Int
  | .unspecified => 0
  | .database => 1

/-- The `i32` prost stores for an `Action` (`a as i32`). -/
def Action.toI32 : Action → Int
  | .unspecified => 0
  | .readSchema => 1
  | .read => 2
  | .write => 3
  | .create => 4
  | .delete => 5

/-- `ResourceActionPermission`. -/
structure ResourceActionPermission where
  resourceType : Int
  resourceId : Option String
  action : Int
  deriving DecidableEq, Repr

/-- `permission::PermissionOneOf`. -/
inductive PermissionOneOf where
  | resourceAction (ra : ResourceActionPermission)
  deriving DecidableEq, Repr

/-- `Permission`: an optional one-of. -/
structure Permission where
  permissionOneOf : Option PermissionOneOf
  deriving DecidableEq, Repr

/-- `AuthorizeRequest`. -/
structure AuthorizeRequest where
  token : List UInt8
  permissions : List Permission
  deriving DecidableEq, Repr

/-- `AuthorizeResponse`, less the `subject` the client never reads. -/
structure AuthorizeResponse where
  valid : Bool
  permissions : List Permission
  deriving DecidableEq, Repr

end Proto

/-- `TryFrom<proto::resource_action_permission::Action> for Action`. -/
def Action.tryFromProto : Proto.Action → Except IncompatiblePermissionError Action
  | .readSchema => .ok .readSchema
  | .read => .ok .read
  | .write => .ok .write
  | .create => .ok .create
  | .delete => .ok .delete
  | _ => .error {}

/-- `From<Action> for proto::resource_action_permission::Action`. -/
def Action.toProto : Action → Proto.Action
  | .create => .create
  | .delete => .delete
  | .read => .read
  | .readSchema => .readSchema
  | .write => .write

/-- `Resource::try_from_proto`. -/
def Resource.tryFromProto :
    Proto.ResourceType → Option String → Except IncompatiblePermissionError Resource
  | .database, some s => .ok (.database s)
  | _, _ => .error {}

/-- `Resource::try_into_proto`: never fails. -/
def Resource.tryIntoProto : Resource → Except IncompatiblePermissionError (Proto.ResourceType × Option String)
  | .database s => .ok (.database, some s)

/-- `TryFrom<proto::Permission> for Permission`. -/
def Permission.tryFromProto (value : Proto.Permission) : Except IncompatiblePermissionError Permission :=
  match value.permissionOneOf with
  | some (.resourceAction ra) => do
    let rt ← (Proto.ResourceType.tryFrom ra.resourceType).elim (.error {}) .ok
    let r ← Resource.tryFromProto rt ra.resourceId
    let pa ← (Proto.Action.tryFrom ra.action).elim (.error {}) .ok
    let a ← Action.tryFromProto pa
    pure (.resourceAction r a)
  | none => .error {}

/-- `TryFrom<Permission> for proto::Permission`. -/
def Permission.tryIntoProto : Permission → Except IncompatiblePermissionError Proto.Permission
  | .resourceAction r a => do
    let (rt, ri) ← r.tryIntoProto
    pure ⟨some (.resourceAction ⟨rt.toI32, ri, a.toProto.toI32⟩)⟩

/-- `tonic::Status`, of which the client keeps the message. -/
structure Status where
  message : String
  deriving DecidableEq, Repr

/-- `authz::Error`. -/
inductive Error where
  /-- Communication error when verifying a token. -/
  | verification (msg : String)
  /-- Token is invalid. -/
  | invalidToken
  /-- The token's permissions do not allow the operation. -/
  | forbidden
  /-- No token has been supplied, but is required. -/
  | noToken
  deriving DecidableEq, Repr

/-- The authorization service, as the client sees it: `client.authorize(req)`. -/
abbrev Service := Proto.AuthorizeRequest → Except Status Proto.AuthorizeResponse

/-- `IoxAuthorizer::request`: the requested permissions that convert, in order. -/
def request (token : List UInt8) (requestedPerms : List Permission) : Proto.AuthorizeRequest :=
  { token
    permissions := requestedPerms.filterMap fun p => (p.tryIntoProto).toOption }

/-- The permissions of a response that convert, in order (`filter_map` with `try_into`). -/
def convertible (ps : List Proto.Permission) : List Permission :=
  ps.filterMap fun p => (Permission.tryFromProto p).toOption

/-- `IoxAuthorizer::permissions`. -/
def permissions (authorize : Service) (token : Option (List UInt8))
    (requestedPerms : List Permission) : Except Error (List Permission) :=
  match token with
  | none => .error .noToken
  | some token =>
    match authorize (request token requestedPerms) with
    | .error status => .error (.verification status.message)
    | .ok authzRpcResult =>
      if !authzRpcResult.valid then .error .invalidToken
      else
        let intersectedPerms := convertible authzRpcResult.permissions
        if intersectedPerms.isEmpty then .error .forbidden else .ok intersectedPerms

/-! ### What an answer of the service becomes -/

/-- A missing token is refused with `NoToken`, whatever the service would answer:
the service is not asked. -/
theorem permissions_none (authorize : Service) (requestedPerms : List Permission) :
    permissions authorize none requestedPerms = .error .noToken := rfl

/-- The spec of `permissions`: it succeeds exactly when a token is given, the
service answers, the token is valid, and some permission of the answer converts;
the result is then the permissions of the answer that convert. -/
theorem permissions_eq_ok_iff {authorize : Service} {token : Option (List UInt8)}
    {requestedPerms ps : List Permission} :
    permissions authorize token requestedPerms = .ok ps ↔
      ∃ t resp, token = some t ∧ authorize (request t requestedPerms) = .ok resp ∧
        resp.valid = true ∧ ps = convertible resp.permissions ∧ ps ≠ [] := by
  cases token with
  | none => simp [permissions]
  | some t =>
    cases hresp : authorize (request t requestedPerms) with
    | error status => simp [permissions, hresp]
    | ok resp =>
      -- the two guards of the body: an invalid token, then an empty list
      cases hvalid : resp.valid with
      | false => simp [permissions, hresp, hvalid]
      | true =>
        by_cases hempty : convertible resp.permissions = []
        · simp [permissions, hresp, hvalid, hempty]
        · simp only [permissions, hresp, hvalid, Bool.not_true, List.isEmpty_iff, hempty]
          constructor
          · rintro ⟨⟩
            exact ⟨t, resp, rfl, hresp, hvalid, rfl, hempty⟩
          · rintro ⟨t', resp', ht, hresp', -, rfl, -⟩
            cases ht
            rw [hresp] at hresp'
            cases hresp'
            rfl

/-- Every permission returned was listed by the service (after conversion). -/
theorem permissions_mem_response {authorize : Service} {t : List UInt8}
    {requestedPerms ps : List Permission} {resp : Proto.AuthorizeResponse}
    (hresp : authorize (request t requestedPerms) = .ok resp)
    (h : permissions authorize (some t) requestedPerms = .ok ps) :
    ∀ p ∈ ps, ∃ q ∈ resp.permissions, Permission.tryFromProto q = .ok p := by
  obtain ⟨t', resp', ht, hresp', -, rfl, -⟩ := permissions_eq_ok_iff.mp h
  cases ht
  rw [hresp] at hresp'
  cases hresp'
  intro p hp
  obtain ⟨q, hq, hqp⟩ := List.mem_filterMap.mp hp
  exact ⟨q, hq, Except.toOption_eq_some_iff.mp hqp⟩

/-! ### Conversions to protobuf and back -/

/-- The protobuf form of a permission: what `Permission::try_into` always produces. -/
def Permission.proto : Permission → Proto.Permission
  | .resourceAction (.database s) a =>
    ⟨some (.resourceAction ⟨Proto.ResourceType.database.toI32, some s, a.toProto.toI32⟩)⟩

theorem Permission.tryIntoProto_eq (p : Permission) : p.tryIntoProto = .ok p.proto := by
  obtain ⟨⟨s⟩, a⟩ := p
  rfl

/-- A permission survives the trip to protobuf and back. -/
theorem Permission.tryFromProto_proto (p : Permission) : Permission.tryFromProto p.proto = .ok p := by
  obtain ⟨⟨s⟩, a⟩ := p
  cases a <;> rfl

/-- No requested permission is dropped from the request. -/
theorem request_permissions (token : List UInt8) (requestedPerms : List Permission) :
    (request token requestedPerms).permissions = requestedPerms.map Permission.proto := by
  simp only [request, Permission.tryIntoProto_eq, Except.toOption_ok]
  exact congrFun List.filterMap_eq_map requestedPerms

/-- Converting back a filtered request gives the filtered permissions. -/
theorem convertible_filter_map_proto (c : Proto.Permission → Bool) (ps : List Permission) :
    convertible ((ps.map Permission.proto).filter c) = ps.filter (c ∘ Permission.proto) := by
  induction ps with
  | nil => rfl
  | cons p ps ih =>
    by_cases hc : c p.proto
    · simp [convertible, hc, Permission.tryFromProto_proto] at ih ⊢
      exact ih
    · simp [convertible, hc] at ih ⊢
      exact ih

/-! ### The repository's test service -/

/-- The service of `test_helpers_end_to_end/src/authz.rs`: a token is valid when it
is in the map, and the answer lists the requested permissions the token holds
(`request.permissions.iter().filter(|p| perms.contains(p))`). -/
def testService (tokens : List (List UInt8 × List Proto.Permission)) : Service := fun req =>
  let recognized := tokens.lookup req.token
  .ok { valid := recognized.isSome
        permissions := req.permissions.filter fun p => (recognized.getD []).contains p }

/-- Against the test service the client returns exactly the requested permissions
that the token holds, in the order requested. -/
theorem permissions_testService {tokens : List (List UInt8 × List Proto.Permission)}
    {t : List UInt8} {requestedPerms ps : List Permission}
    (h : permissions (testService tokens) (some t) requestedPerms = .ok ps) :
    ps = requestedPerms.filter (fun p => ((tokens.lookup t).getD []).contains p.proto) := by
  obtain ⟨t', resp, ht, hresp, -, rfl, -⟩ := permissions_eq_ok_iff.mp h
  cases ht
  simp only [testService, request_permissions, Except.ok.injEq] at hresp
  subst hresp
  exact convertible_filter_map_proto _ _

/-! ### A service that lists what was not requested -/

/-- The permission check of `do_get` (`service_grpc_flight/src/lib.rs`) for an SQL or
InfluxQL query: a read of the database is requested, and any `Ok` grants it. -/
def doGetPermitted (authorize : Service) (token : Option (List UInt8)) (database : String) : Bool :=
  (permissions authorize token [.resourceAction (.database database) .read]).isOk

/-- A valid answer listing a write on database `b`, whatever was asked. -/
def writeOnBService : Service := fun _ =>
  .ok { valid := true, permissions := [(Permission.resourceAction (.database "b") .write).proto] }

/-- Asked for a read of `a`, the client returns the write on `b` the service listed,
which was not requested, and `do_get` lets the read of `a` through. -/
theorem permissions_returns_unrequested :
    permissions writeOnBService (some [0x74]) [.resourceAction (.database "a") .read] =
        .ok [.resourceAction (.database "b") .write] ∧
      Permission.resourceAction (.database "b") .write ∉ [Permission.resourceAction (.database "a") .read] ∧
      doGetPermitted writeOnBService (some [0x74]) "a" = true := by
  refine ⟨rfl, by decide, rfl⟩

end IoxCore.Authz
