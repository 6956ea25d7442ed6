import KnowledgeEngine.JsonAny
import KnowledgeEngine.JsonDecode

/-!
The JSON:API middleware (transport/jsonapi): the route table, the envelope of write requests and
the transformation of responses by role. A path is the unescaped bytes of r.URL.Path; where a
path becomes a JSON string it is the text json.Marshal writes for those bytes.
-/

namespace KnowledgeEngine.JsonApi

open FloatText JsonAny JsonDecode JsonFloat JsonText MachineNumbers StringText

inductive Role
  | list | getOne | create | update | delete | action
deriving DecidableEq

structure RouteEntry where
  Method : String
  PathTemplate : String
  Role : Role
  ResourceType : String
  SingleKey : String
  CollectionKey : String
  PaginationKey : String
  RequestEnvelope : Bool
deriving DecidableEq

structure ResourceConfig where
  resourceType : String
  SingleKey : String
  CollectionKey : String
  PaginationKey : String

def RouteEntry.resourceConfig (e : RouteEntry) : ResourceConfig :=
  ⟨e.ResourceType, e.SingleKey, e.CollectionKey, e.PaginationKey⟩

structure Config where
  BasePath : String
  Routes : List RouteEntry

def bytesOf (s : String) : List UInt8 := utf8Encode s.toList

/-- The non-empty segments of a path. -/
def splitPath (path : List UInt8) : List (List UInt8) := (path.splitOn 0x2f).filter (· ≠ [])

def isParam (seg : List UInt8) : Bool :=
  2 ≤ seg.length && seg.head? == some 0x7b && seg.getLast? == some 0x7d

/-- The number of literal segments of a template that matches. -/
def matchTemplate : List (List UInt8) → List (List UInt8) → Option ℕ
  | [], [] => some 0
  | t :: tmpl, seg :: path =>
    if isParam t then matchTemplate tmpl path
    else if t = seg then (matchTemplate tmpl path).map (· + 1)
    else none
  | _, _ => none

/-- One round of the loop over the routes: the best route so far with its literals. -/
def better (method : String) (segs : List (List UInt8)) (best : Option (RouteEntry × ℕ))
    (e : RouteEntry) : Option (RouteEntry × ℕ) :=
  if equalFold e.Method method then
    match matchTemplate (splitPath (bytesOf e.PathTemplate)) segs with
    | none => best
    | some literals =>
      match best with
      | none => some (e, literals)
      | some (_, bestLiterals) => if bestLiterals < literals then some (e, literals) else best
  else best

def Config.matchRoute (c : Config) (method : String) (path : List UInt8) : Option RouteEntry :=
  if c.BasePath ≠ "" ∧ ¬ bytesOf c.BasePath <+: path then none
  else (c.Routes.foldl (better method (splitPath path)) none).map Prod.fst

structure Request where
  Method : String
  Path : List UInt8
  RawQuery : List UInt8
  ConnectProtocolVersion : String
  ContentType : String
  /-- None when the body cannot be read. -/
  Body : Option (List UInt8)
deriving DecidableEq

structure Response where
  status : ℕ
  ContentType : Option String
  Location : Option (List UInt8)
  body : List UInt8

def isRESTRequest (r : Request) : Bool :=
  r.ConnectProtocolVersion == "" && !("application/grpc".toList.isPrefixOf r.ContentType.toList)

def contentTypeJSONAPI : String := "application/vnd.api+json"

def maxBodySize : ℕ := 1048576

/-- The text json.Marshal writes for a string of bytes. -/
def textOf (bytes : List UInt8) : Any := .str (String.ofList (utf8Decode bytes))

def hasKey (parsed : List (String × Any)) (key : String) : Bool :=
  key == "" || (parsed.lookup key).isSome

/-- The envelope of a write request: the body with the attributes and a present id, or why the
request is rejected. -/
def unwrapAndValidate (body : List UInt8) (resourceType : String) : Except String (List UInt8) :=
  if body = [] then .error "request body is required and must be a JSON:API document"
  else
    match unmarshalMap body with
    | none => .error "request body is not valid JSON"
    | some parsed =>
      match parsed.lookup "data" with
      | none => .error "request must be a JSON:API document with a data member"
      | some (.map data) =>
        let typ := match data.lookup "type" with
          | some (.str s) => s
          | _ => ""
        if typ ≠ resourceType then .error ("request data.type must be " ++ resourceType)
        else
          match data.lookup "attributes" with
          | none => .error "request data.attributes is required"
          | some (.map attrs) =>
            let attrs := match data.lookup "id" with
              | some id => assign attrs "id" id
              | none => attrs
            match marshal (.map attrs) with
            | none => .error "could not encode request attributes"
            | some out => .ok out
          | some _ => .error "request data.attributes must be an object"
      | some _ => .error "request data member must be an object"

def transformMeta (body : List (String × Any)) : List (String × Any) := [("meta", .map body)]

def buildResourceObject (resource : List (String × Any)) (resourceType : String) : Any :=
  let obj := [("type", .str resourceType)]
  let obj := match resource.lookup "id" with
    | some id => assign obj "id" id
    | none => obj
  .map (assign obj "attributes" (.map (resource.filter fun e => e.1 ≠ "id")))

def transformSingleResource (body : List (String × Any)) (cfg : ResourceConfig)
    (selfLink : List UInt8) : List (String × Any) :=
  match body.lookup cfg.SingleKey with
  | none => transformMeta body
  | some (.map resource) =>
    let result := [("data", buildResourceObject resource cfg.resourceType)]
    let result := if selfLink ≠ [] then
        assign result "links" (.map [("self", textOf selfLink)])
      else result
    let rest := body.filter fun e => e.1 ≠ cfg.SingleKey
    if rest.isEmpty then result else assign result "meta" (.map rest)
  | some _ => body

/-- The members of the pagination that become meta, of those that are present. -/
def paginationMeta (pg : List (String × Any)) : List (String × Any) :=
  ["totalCount", "totalIsEstimate"].filterMap fun name => (pg.lookup name).map fun v => (name, v)

def nextLink (selfLink : List UInt8) (token : String) : List UInt8 :=
  selfLink ++ bytesOf "?page_token=" ++ bytesOf token

def transformCollection (body : List (String × Any)) (cfg : ResourceConfig)
    (selfLink : List UInt8) : List (String × Any) :=
  let items? := match body.lookup cfg.CollectionKey with
    | none => some []
    | some (.slice items) => some items
    | some _ => none
  match items? with
  | none => body
  | some items =>
    let data := items.map fun item => match item with
      | .map m => buildResourceObject m cfg.resourceType
      | other => other
    let result := [("data", .slice data)]
    if selfLink = [] then result
    else
      let links := [("self", textOf selfLink)]
      let pagination := if cfg.PaginationKey = "" then none else body.lookup cfg.PaginationKey
      match pagination with
      | some (.map pg) =>
        let links := match pg.lookup "nextPageToken" with
          | some (.str s) =>
            if s ≠ "" then assign links "next" (textOf (nextLink selfLink s)) else links
          | _ => links
        let counts := paginationMeta pg
        let result := if counts.isEmpty then result else assign result "meta" (.map counts)
        assign result "links" (.map links)
      | _ => assign result "links" (.map links)

/-- int(v) for a float64 within the range of an int. -/
def truncate (bits : BitVec 64) : ℤ :=
  if bits.msb then -(units (magnitude bits) / 2 ^ scale : ℕ)
  else (units (magnitude bits) / 2 ^ scale : ℕ)

/-- The names of the codes 1 to 16. -/
def codeNames : List String :=
  ["canceled", "unknown", "invalid_argument", "deadline_exceeded", "not_found", "already_exists",
    "permission_denied", "resource_exhausted", "failed_precondition", "aborted", "out_of_range",
    "unimplemented", "internal", "unavailable", "data_loss", "unauthenticated"]

def normalizeErrorCode : Option Any → String
  | some (.str s) => s
  | some (.float bits) =>
    let n := truncate bits
    if 1 ≤ n ∧ n ≤ 16 then codeNames.getD (n - 1).toNat "" else ""
  | _ => ""

def transformError (statusCode : ℕ) (body : List UInt8) : List UInt8 :=
  let status := String.ofList (decimal statusCode)
  let parsed := (unmarshalMap body).getD []
  let normalized := normalizeErrorCode (parsed.lookup "code")
  let code := if normalized ≠ "" then normalized else "unknown"
  let member := [("code", .str code), ("status", .str status)]
  let member := match parsed.lookup "message" with
    | some (.str m) => if m ≠ "" then assign member "detail" (.str m) else member
    | _ => member
  (marshal (.map [("errors", .slice [.map member])])).getD
    (bytesOf ("\x7b\"errors\":[\x7b\"code\":\"unknown\",\"status\":\"" ++ status ++ "\"\x7d]\x7d"))

def decodeCode (old : ℤ) (member : String × Json) : Option ℤ :=
  if equalFold "code" member.1 then
    match member.2 with
    | .null => some old
    | .num literal => parseDecimal literal
    | _ => none
  else some old

/-- A 500 of code Unknown is a request that could not be bound. -/
def reclassifyBindingError (status : ℕ) (body : List UInt8) : ℕ :=
  if status ≠ 500 then status
  else if unmarshal decodeCode 0 (utf8Decode body) = some 2 then 400 else status

/-- A JSON:API error document of the middleware's own. -/
def errorResponse (status : ℕ) (code message : String) : Response :=
  let body := (marshal (.map [("code", .str code), ("message", .str message)])).getD []
  ⟨status, some contentTypeJSONAPI, none, transformError status body⟩

def writeRequestError (message : String) : Response := errorResponse 400 "invalid_argument" message

def writeMissingResourceError (key : String) : Response :=
  errorResponse 500 "internal" ("response carried no " ++ key ++ " resource")

/-- The document for a role with its status and location, or the key the response lacks. -/
def transformByRole (route : RouteEntry) (parsed : List (String × Any)) (selfLink : List UInt8) :
    Except String (List (String × Any) × ℕ × Option (List UInt8)) :=
  let rc := route.resourceConfig
  match route.Role with
  | .action => .ok (transformMeta parsed, 200, none)
  | .list => .ok (transformCollection parsed rc selfLink, 200, none)
  | .create =>
    if rc.SingleKey = "" ∧ rc.CollectionKey ≠ "" then
      if hasKey parsed rc.CollectionKey then
        .ok (transformCollection parsed rc selfLink, 201, none)
      else .error rc.CollectionKey
    else if hasKey parsed rc.SingleKey then
      let result := transformSingleResource parsed rc selfLink
      let location := match result.lookup "data" with
        | some (.map data) =>
          match data.lookup "id" with
          | some (.str id) => if id ≠ "" then some (selfLink ++ 0x2f :: bytesOf id) else none
          | _ => none
        | _ => none
      .ok (result, 201, location)
    else .error rc.SingleKey
  | .getOne | .update | .delete =>
    if hasKey parsed rc.SingleKey then
      .ok (transformSingleResource parsed rc selfLink, 200, none)
    else .error rc.SingleKey

/-- What becomes of the response of the inner handler. -/
def transformResponse (route : RouteEntry) (selfLink : List UInt8) (res : Response) : Response :=
  if 400 ≤ res.status then
    let status := reclassifyBindingError res.status res.body
    { res with status := status, ContentType := some contentTypeJSONAPI,
               body := transformError status res.body }
  else if route.Role = .delete then
    { res with status := 204, ContentType := some contentTypeJSONAPI, body := [] }
  else if maxBodySize < res.body.length then res
  else
    match unmarshalMap res.body with
    | none => res
    | some parsed =>
      match transformByRole route parsed selfLink with
      | .error key => { writeMissingResourceError key with Location := res.Location }
      | .ok (result, status, location) =>
        match marshal (.map result) with
        | none => res
        | some out =>
          ⟨status, some contentTypeJSONAPI, location.or res.Location, out⟩

/-- The request the inner handler gets, or the response to a bad envelope. -/
def unwrapRequest (route : RouteEntry) (r : Request) : Except Response Request :=
  if route.RequestEnvelope then
    match r.Body with
    | none => .error (writeRequestError "could not read request body")
    | some body =>
      match unwrapAndValidate body route.ResourceType with
      | .error msg => .error (writeRequestError msg)
      | .ok unwrapped => .ok { r with Body := some unwrapped }
  else .ok r

def middleware (inner : Request → Response) (cfg : Config) (r : Request) : Response :=
  if isRESTRequest r then
    match cfg.matchRoute r.Method r.Path with
    | none => inner r
    | some route =>
      match unwrapRequest route r with
      | .error response => response
      | .ok r => transformResponse route r.Path (inner r)
  else inner r

end KnowledgeEngine.JsonApi
