import KnowledgeEngine.JsonApi
import KnowledgeEngine.PageRun
import KnowledgeEngine.UrlText

/-!
The next link of a JSON:API list and the request that follows it. The link is the unescaped path
of the request with the page token put behind it, so a client gets back the path and the token
when neither needs an escape, and of the parameters of the request only the token.
-/

namespace KnowledgeEngine.JsonApiLinks

open CoreTypes JsonAny JsonApi JsonMeaning JsonReading JsonText PageRun PageTokens StringText
open UrlText

def pageToken : List UInt8 := bytesOf "page_token"

/-- The values of a query parameter. -/
def paramsOf (r : Request) (key : List UInt8) : List (List UInt8) :=
  valuesOf key (parseQuery r.RawQuery)

/-- A link of a JSON:API document. -/
def linkOf (name : String) : Json → Option String
  | .obj members =>
    match lastMember "links" members with
    | some (.obj links) =>
      match lastMember name links with
      | some (.str s) => some s
      | _ => none
    | _ => none
  | _ => none

/-- The body of the response is a document with this next link. -/
def NextLink (res : Response) (link : String) : Prop :=
  ∃ doc, Spells (utf8Decode res.body) doc ∧ linkOf "next" doc = some link

/-- The request a client sends for a link, if the link stays on the host. -/
def follow (r : Request) (link : String) : Option Request :=
  match parseReference (bytesOf link) with
  | some ⟨none, path, query⟩ => some { r with Path := path, RawQuery := query }
  | _ => none

/-- The next request continues the list: it has the path and the named parameters of the first
request, and the token. -/
structure Continues (Names : List UInt8 → Prop) (r : Request) (token : String) (next : Request) :
    Prop where
  path : next.Path = r.Path
  params : ∀ key, Names key → paramsOf next key = paramsOf r key
  token : paramsOf next pageToken = [bytesOf token]

/-- A response that becomes a list document: its pagination carries a next page token. -/
structure Page (route : RouteEntry) (res : Response) (token : String) : Prop where
  status : res.status < 400
  size : res.body.length ≤ maxBodySize
  key : route.PaginationKey ≠ ""
  document : ∃ parsed pg, unmarshalMap res.body = some parsed ∧
    (∀ v, parsed.lookup route.CollectionKey = some v → ∃ items, v = .slice items) ∧
    parsed.lookup route.PaginationKey = some (.map pg) ∧
    pg.lookup "nextPageToken" = some (.str token)
  token : token ≠ ""

/-- A path that stands for itself in a link and stays on the host. -/
structure PlainPath (path : List UInt8) : Prop where
  text : utf8Encode (utf8Decode path) = path
  plain : Plain pathSpecials path
  relative : hasAuthority path = false

section Document

variable {entries : List (String × Any)}

theorem encode_lookup (h : ∀ e ∈ entries, (encode e.2).isSome) {name : String} {v : Any}
    (hv : entries.lookup name = some v) : (encode v).isSome := by
  obtain ⟨before, after, heq, -⟩ := List.lookup_eq_some_iff.mp hv
  exact h (name, v) (by simp [heq])

theorem encode_assign (h : ∀ e ∈ entries, (encode e.2).isSome) (key : String) {v : Any}
    (hv : (encode v).isSome) : ∀ e ∈ assign entries key v, (encode e.2).isSome := by
  rw [assign, List.forall_mem_cons]
  exact ⟨hv, fun e he => h e (List.mem_filter.mp he).1⟩

/-- What was read can be written. -/
theorem encode_unmarshalMap {body : List UInt8} {parsed : List (String × Any)}
    (h : unmarshalMap body = some parsed) : ∀ e ∈ parsed, (encode e.2).isSome := by
  unfold unmarshalMap at h
  split at h
  · obtain rfl := Option.some.inj h
    simp
  · next members hparse =>
    have hvalid := (parse_eq_some_iff.mp hparse).1.valid
    have hdecode : decode (.obj members) = some (.map parsed) := by
      rw [decode, h, Option.map_some]
    obtain ⟨j, hj, -⟩ := exists_written hvalid _ hdecode
    exact (encode_map_isSome_iff parsed).mp (by rw [hj]; rfl)
  · cases h

theorem encode_buildResourceObject {resource : List (String × Any)}
    (h : ∀ e ∈ resource, (encode e.2).isSome) (resourceType : String) :
    (encode (buildResourceObject resource resourceType)).isSome := by
  rw [buildResourceObject, encode_map_isSome_iff]
  refine encode_assign ?_ _ ?_
  · split
    · next id hid => exact encode_assign (by simp [encode]) _ (encode_lookup h hid)
    · simp [encode]
  · rw [encode_map_isSome_iff]
    exact fun e he => h e (List.mem_filter.mp he).1

theorem encode_items {items : List Any} (h : ∀ item ∈ items, (encode item).isSome)
    {resourceType : String} :
    ∀ item ∈ items.map fun item => match item with
      | .map m => buildResourceObject m resourceType
      | other => other, (encode item).isSome := by
  intro item hitem
  obtain ⟨source, hsource, rfl⟩ := List.mem_map.mp hitem
  split
  · next m => exact encode_buildResourceObject ((encode_map_isSome_iff m).mp (h _ hsource)) _
  · exact h _ hsource

theorem encode_paginationMeta {pg : List (String × Any)} (h : ∀ e ∈ pg, (encode e.2).isSome) :
    ∀ e ∈ paginationMeta pg, (encode e.2).isSome := by
  intro e he
  obtain ⟨name, -, hname⟩ := List.mem_filterMap.mp he
  obtain ⟨v, hv, rfl⟩ := Option.map_eq_some_iff.mp hname
  exact encode_lookup h hv

theorem list_entries {data : List Any} {counts : List (String × Any)}
    (hdata : ∀ item ∈ data, (encode item).isSome) (hcounts : (encode (.map counts)).isSome) :
    let entries := if counts.isEmpty then [("data", Any.slice data)]
      else assign [("data", .slice data)] "meta" (.map counts)
    (entries.map Prod.fst).Nodup ∧ ∀ e ∈ entries, (encode e.2).isSome := by
  intro entries
  have hslice : ∀ e ∈ [("data", Any.slice data)], (encode e.2).isSome :=
    List.forall_mem_singleton.mpr (encode_slice_isSome_iff.mpr hdata)
  cases hempty : counts.isEmpty with
  | true => simpa [entries, hempty] using hslice
  | false =>
    simp only [entries, hempty, Bool.false_eq_true, if_false]
    exact ⟨nodup_assign (by simp) _ _, encode_assign hslice _ hcounts⟩

/-- The document of a list with a next page token: items, counts and both links. -/
theorem transformCollection_page (cfg : ResourceConfig) {parsed pg : List (String × Any)}
    {path : List UInt8} {token : String} (hpath : path ≠ []) (hkey : cfg.PaginationKey ≠ "")
    (hitems : ∀ v, parsed.lookup cfg.CollectionKey = some v → ∃ items, v = .slice items)
    (hpg : parsed.lookup cfg.PaginationKey = some (.map pg))
    (htoken : pg.lookup "nextPageToken" = some (.str token)) (hne : token ≠ "")
    (h : ∀ e ∈ parsed, (encode e.2).isSome) :
    ∃ entries, transformCollection parsed cfg path = assign entries "links" (.map
        (assign [("self", textOf path)] "next" (textOf (nextLink path token)))) ∧
      (entries.map Prod.fst).Nodup ∧ ∀ e ∈ entries, (encode e.2).isSome := by
  have hcounts : (encode (.map (paginationMeta pg))).isSome := by
    rw [encode_map_isSome_iff]
    exact encode_paginationMeta ((encode_map_isSome_iff pg).mp (encode_lookup h hpg))
  rw [transformCollection]
  simp only [hpath, hkey, hpg, htoken, hne, if_false, ne_eq, not_false_eq_true, if_true]
  cases hlookup : parsed.lookup cfg.CollectionKey with
  | none => exact ⟨_, rfl, list_entries (encode_items (by simp)) hcounts⟩
  | some v =>
    obtain ⟨items, rfl⟩ := hitems v hlookup
    have hread := encode_slice_isSome_iff.mp (encode_lookup h hlookup)
    exact ⟨_, rfl, list_entries (encode_items hread) hcounts⟩

/-- An entry of a written map is a member of the document. -/
theorem encode_map_member {j : Json} (hnodup : (entries.map Prod.fst).Nodup)
    (h : encode (.map entries) = some j) :
    ∃ members, j = .obj members ∧
      ∀ name, lastMember name members = (entries.lookup name).bind encode := by
  obtain ⟨members, hmembers, rfl⟩ := Option.map_eq_some_iff.mp h
  exact ⟨_, rfl, lastMember_encode hnodup hmembers⟩

theorem marshal_links {links : List (String × Any)} {link : String}
    (hnodup : (entries.map Prod.fst).Nodup) (h : ∀ e ∈ entries, (encode e.2).isSome)
    (hlinks : (links.map Prod.fst).Nodup) (hwritten : ∀ e ∈ links, (encode e.2).isSome)
    (hnext : links.lookup "next" = some (.str link)) :
    ∃ out doc, marshal (.map (assign entries "links" (.map links))) = some out ∧
      Spells (utf8Decode out) doc ∧ linkOf "next" doc = some link := by
  have hmap := (encode_map_isSome_iff links).mpr hwritten
  have hresult := (encode_map_isSome_iff _).mpr (encode_assign h "links" hmap)
  obtain ⟨doc, hdoc⟩ := Option.isSome_iff_exists.mp hresult
  obtain ⟨inner, hinner⟩ := Option.isSome_iff_exists.mp hmap
  refine ⟨utf8Encode (print doc), doc, by rw [marshal, hdoc, Option.map_some], ?_, ?_⟩
  · rw [utf8Decode_utf8Encode]
    exact spells_print doc (valid_encode _ _ hdoc)
  · obtain ⟨members, rfl, hmembers⟩ := encode_map_member (nodup_assign hnodup _ _) hdoc
    obtain ⟨linkMembers, rfl, hlinkMembers⟩ := encode_map_member hlinks hinner
    have hlast : lastMember "links" members = some (.obj linkMembers) := by
      rw [hmembers, lookup_assign, if_pos rfl, Option.bind_some, hinner]
    have hstr : lastMember "next" linkMembers = some (.str link) := by
      rw [hlinkMembers, hnext, Option.bind_some, encode]
    rw [linkOf]
    simp only [hlast, hstr]

end Document

variable {r : Request} {token : String}

theorem unwrapRequest_path {route : RouteEntry} {r' : Request}
    (h : unwrapRequest route r = .ok r') :
    r'.Path = r.Path := by
  unfold unwrapRequest at h
  split at h
  · split at h
    · cases h
    · split at h
      · cases h
      · obtain rfl := Except.ok.inj h
        rfl
  · obtain rfl := Except.ok.inj h
    rfl

/-- The link the middleware emits for a page of a list. -/
def emitted (r : Request) (token : String) : String :=
  String.ofList (utf8Decode (nextLink r.Path token))

theorem nextLink_middleware (inner : Request → Response) (cfg : Config) {r' : Request}
    {route : RouteEntry} (hrest : isRESTRequest r = true) (hpath : r.Path ≠ [])
    (hroute : cfg.matchRoute r.Method r.Path = some route) (hlist : route.Role = .list)
    (hunwrap : unwrapRequest route r = .ok r') (hpage : Page route (inner r') token) :
    NextLink (middleware inner cfg r) (emitted r token) := by
  have hsame := unwrapRequest_path hunwrap
  obtain ⟨parsed, pg, hparsed, hitems, hpg, htoken⟩ := hpage.document
  obtain ⟨entries, hresult, hnodup, hwritten⟩ := transformCollection_page route.resourceConfig
    hpath hpage.key hitems hpg htoken hpage.token (encode_unmarshalMap hparsed)
  have hself : ∀ e ∈ [("self", textOf r.Path)], (encode e.2).isSome := by
    simp [textOf, encode]
  have hnext : (assign [("self", textOf r.Path)] "next" (textOf (nextLink r.Path token))).lookup
      "next" = some (.str (emitted r token)) := by
    rw [lookup_assign, if_pos rfl]
    rfl
  obtain ⟨out, doc, hout, hspells, hlink⟩ := marshal_links hnodup hwritten
    (nodup_assign (by simp) _ _) (encode_assign hself _ (by simp [textOf, encode])) hnext
  refine ⟨doc, ?_, hlink⟩
  have hstatus : ¬ 400 ≤ (inner r').status := Nat.not_le.mpr hpage.status
  have hsize : ¬ maxBodySize < (inner r').body.length := Nat.not_lt.mpr hpage.size
  have hdelete : route.Role ≠ .delete := by
    rw [hlist]
    decide
  have hbody : (middleware inner cfg r).body = out := by
    rw [middleware, if_pos hrest, hroute]
    simp only [hunwrap]
    rw [hsame, transformResponse, if_neg hstatus, if_neg hdelete, if_neg hsize, hparsed]
    simp only [transformByRole, hlist, hresult, hout]
  rwa [hbody]

theorem plain_pageToken : Plain keySpecials pageToken := by decide +kernel

theorem bytesOf_emitted (r : Request) (token : String) :
    bytesOf (emitted r token) =
      utf8Encode (utf8Decode r.Path) ++ 0x3f :: (pageToken ++ 0x3d :: bytesOf token) := by
  have hquery : bytesOf "?page_token=" ++ bytesOf token =
      0x3f :: (pageToken ++ 0x3d :: bytesOf token) := rfl
  have htext : bytesOf "?page_token=" ++ bytesOf token =
      utf8Encode ("?page_token=".toList ++ token.toList) := List.flatMap_append.symm
  have hhead : ∀ b ∈ (bytesOf "?page_token=" ++ bytesOf token).head?, b.toNat < 0x80 := by
    rw [hquery]
    rintro b ⟨⟩
    decide
  rw [bytesOf, emitted, String.toList_ofList, nextLink, List.append_assoc,
    utf8Decode_append hhead, htext, utf8Decode_utf8Encode, utf8Encode, List.flatMap_append]
  exact congrArg _ (htext.symm.trans hquery)

theorem follow_eq_some_iff {next : Request} {link : String} :
    follow r link = some next ↔ ∃ ref, parseReference (bytesOf link) = some ref ∧
      ref.Host = none ∧ next = { r with Path := ref.Path, RawQuery := ref.RawQuery } := by
  rw [follow]
  cases parseReference (bytesOf link) with
  | none => simp
  | some ref =>
    obtain ⟨host, path, query⟩ := ref
    cases host with
    | none => simp [eq_comm]
    | some host => simp

theorem valuesOf_token (h : Plain valueSpecials (bytesOf token)) {key : List UInt8} :
    valuesOf key (parseQuery (pageToken ++ 0x3d :: bytesOf token)) =
      if key = pageToken then [bytesOf token] else [] := by
  rw [parseQuery_plain plain_pageToken h, valuesOf]
  by_cases hkey : key = pageToken
  · simp [hkey]
  · simp [hkey, Ne.symm hkey]

/-- A link of a plain path and a plain token leads to that path, with the token alone. -/
theorem follow_emitted (hslash : r.Path.head? = some 0x2f) (hpath : PlainPath r.Path)
    (htoken : Plain valueSpecials (bytesOf token)) :
    follow r (emitted r token) =
      some { r with RawQuery := pageToken ++ 0x3d :: bytesOf token } := by
  rw [follow, bytesOf_emitted, hpath.text,
    parseReference_plain hslash hpath.plain hpath.relative plain_pageToken htoken]

theorem continues_iff {Names : List UInt8 → Prop} (hnames : ¬ Names pageToken)
    (hslash : r.Path.head? = some 0x2f) :
    (∃ next, follow r (emitted r token) = some next ∧ Continues Names r token next) ↔
      PlainPath r.Path ∧ Plain valueSpecials (bytesOf token) ∧
        ∀ key, Names key → paramsOf r key = [] := by
  have hother : ∀ key, Names key → Plain valueSpecials (bytesOf token) →
      valuesOf key (parseQuery (pageToken ++ 0x3d :: bytesOf token)) = [] := by
    intro key hkey htoken
    rw [valuesOf_token htoken, if_neg]
    rintro rfl
    exact hnames hkey
  constructor
  · rintro ⟨next, hnext, hcontinues⟩
    have hplain : PlainPath r.Path ∧ Plain valueSpecials (bytesOf token) := by
      obtain ⟨ref, href, hhost, rfl⟩ := follow_eq_some_iff.mp hnext
      rw [bytesOf_emitted] at href
      obtain ⟨htext, hpath, hauthority, hvalue⟩ := plain_of_parseReference
        (fun a ha => count_utf8 ha) plain_pageToken href hhost hcontinues.path
        hcontinues.token
      exact ⟨⟨htext, hpath, hauthority⟩, hvalue⟩
    rw [follow_emitted hslash hplain.1 hplain.2] at hnext
    obtain rfl := Option.some.inj hnext
    refine ⟨hplain.1, hplain.2, fun key hkey => ?_⟩
    rw [← hcontinues.params key hkey]
    exact hother key hkey hplain.2
  · rintro ⟨hpath, htoken, hparams⟩
    refine ⟨_, follow_emitted hslash hpath htoken, rfl, fun key hkey => ?_, ?_⟩
    · rw [hparams key hkey]
      exact hother key hkey htoken
    · exact (valuesOf_token htoken).trans (if_pos rfl)

theorem NextLink.unique {res : Response} {link link' : String} (h : NextLink res link)
    (h' : NextLink res link') : link = link' := by
  obtain ⟨doc, hdoc, hlink⟩ := h
  obtain ⟨doc', hdoc', hlink'⟩ := h'
  obtain rfl := hdoc.unique hdoc'
  exact Option.some.inj (hlink.symm.trans hlink')

/-- The tokens of the repository need no escape. -/
theorem plain_encodeToken {tok : PageToken} (h : encodeToken tok = .ok token) :
    Plain valueSpecials (bytesOf token) := by
  have hsymbol : ((List.range 64).all fun n => decide
      (Plain valueSpecials (String.utf8EncodeChar (Base64.symbol .rawURL n)))) = true := by
    decide +kernel
  unfold encodeToken at h
  split at h
  · cases h
  · obtain rfl := Except.ok.inj h
    intro b hb
    rw [bytesOf, String.toList_ofList] at hb
    obtain ⟨c, hc, hb⟩ := List.mem_flatMap.mp hb
    rcases Base64.mem_encode_cases c hc with ⟨n, hn, rfl⟩ | ⟨hstd, -⟩
    · exact of_decide_eq_true (List.all_eq_true.mp hsymbol n (List.mem_range.mpr hn)) b hb
    · cases hstd

section Keyset

variable {T D : Type} (sha256 : List UInt8 → List UInt8)

/-- The check a keyset page starts with. -/
def Accepts (cur : KeysetCursor) (r : Reader T D) : Prop :=
  cur.Fingerprint = Fingerprint.fingerprint sha256 r.sort r.Filter

variable {ks : Keyset T} {cols : List KeysetOrder.KeysetColumn}

theorem keysetPage_rejects {cur : KeysetCursor} {r : Reader T D} (h : ¬ Accepts sha256 cur r)
    {order : List OrderField} {userF : Filter} {limit : ℤ} :
    keysetPage sha256 cur ks cols order userF limit r = .error (.err (invalidInput
      "page token does not match the current query (sort or filter changed)")) :=
  if_pos h

/-- The sort and the filter of a list are read from the named parameters. -/
def ReadsNames (Names : List UInt8 → Prop) (readerOf : Request → Reader T D) : Prop :=
  ∀ (r : Request) (query : List UInt8),
    (∀ key, Names key → paramsOf { r with RawQuery := query } key = paramsOf r key) →
      (readerOf { r with RawQuery := query }).sort = (readerOf r).sort ∧
        (readerOf { r with RawQuery := query }).Filter = (readerOf r).Filter

theorem mintKeysetCursor_eq {sort : List OrderField} {filter : Filter} {row : T}
    (h : mintKeysetCursor sha256 ks cols row sort filter = .ok token) :
    ∃ k : KeysetCursor, encodeToken ⟨some k, 0⟩ = .ok token ∧
      k.Fingerprint = Fingerprint.fingerprint sha256 sort filter := by
  obtain ⟨minted, -, hencode⟩ := FilterParse.bind_ok_iff.mp h
  exact ⟨_, hencode, rfl⟩

/-- A cursor is accepted under the sort and the filter it was minted under. -/
theorem accepts_of_mint {sort : List OrderField} {filter : Filter} {row : T}
    {cur : KeysetCursor} {r : Reader T D}
    (hmint : mintKeysetCursor sha256 ks cols row sort filter = .ok token)
    (hdecode : decodeToken token = .ok ⟨some cur, 0⟩) (hsort : r.sort = sort)
    (hfilter : r.Filter = filter) : Accepts sha256 cur r := by
  obtain ⟨k, hencode, hfingerprint⟩ := mintKeysetCursor_eq sha256 hmint
  obtain ⟨cur', hcur, hsame⟩ := fingerprint_decodeToken hencode hdecode
  obtain rfl : cur = cur' := by simpa using hcur
  rw [Accepts, hsame, hfingerprint, hsort, hfilter]

theorem next_link_continues_iff (Names : List UInt8 → Prop) (hnames : ¬ Names pageToken)
    (inner : Request → Response) (cfg : Config) (r r' : Request) (route : RouteEntry)
    (token : String) (hrest : isRESTRequest r = true) (hslash : r.Path.head? = some 0x2f)
    (hroute : cfg.matchRoute r.Method r.Path = some route) (hlist : route.Role = .list)
    (hunwrap : unwrapRequest route r = .ok r') (hpage : Page route (inner r') token) :
    (∃ link, NextLink (middleware inner cfg r) link) ∧
    ∀ link, NextLink (middleware inner cfg r) link →
      ((∃ next, follow r link = some next ∧ Continues Names r token next) ↔
        PlainPath r.Path ∧ Plain valueSpecials (bytesOf token) ∧
          ∀ key, Names key → paramsOf r key = []) ∧
      ∀ readerOf : Request → Reader T D, ReadsNames Names readerOf →
        ∀ (ks : Keyset T) (cols : List KeysetOrder.KeysetColumn) (row : T),
          mintKeysetCursor sha256 ks cols row (readerOf r).sort (readerOf r).Filter = .ok token →
          PlainPath r.Path → (∀ key, Names key → paramsOf r key = []) →
          ∃ next, follow r link = some next ∧ Continues Names r token next ∧
            ∀ cur, decodeToken token = .ok ⟨some cur, 0⟩ → Accepts sha256 cur (readerOf next) := by
  have hpath : r.Path ≠ [] := by
    intro hnil
    rw [hnil] at hslash
    cases hslash
  have hemitted := nextLink_middleware inner cfg hrest hpath hroute hlist hunwrap hpage
  refine ⟨⟨_, hemitted⟩, fun link hlink => ?_⟩
  obtain rfl := hlink.unique hemitted
  refine ⟨continues_iff hnames hslash, fun readerOf hreads ks cols row hmint hplain hparams => ?_⟩
  obtain ⟨k, hencode, -⟩ := mintKeysetCursor_eq sha256 hmint
  have htoken := plain_encodeToken hencode
  obtain ⟨next, hnext, hcontinues⟩ := (continues_iff hnames hslash).mpr ⟨hplain, htoken, hparams⟩
  refine ⟨next, hnext, hcontinues, fun cur hcur => ?_⟩
  rw [follow_emitted hslash hplain htoken] at hnext
  obtain rfl := Option.some.inj hnext
  obtain ⟨hsort, hfilter⟩ := hreads r _ hcontinues.params
  exact accepts_of_mint sha256 hmint hcur hsort hfilter

end Keyset

section Users

def usersRoute : RouteEntry :=
  ⟨"GET", "/v1/users", .list, "users", "user", "users", "pagination", false⟩

def usersConfig : Config := ⟨"/v1", [usersRoute]⟩

def usersRequest (query : String) : Request :=
  ⟨"GET", bytesOf "/v1/users", bytesOf query, "", "", some []⟩

def usersDocument : Json :=
  .obj [("users", .arr []), ("pagination", .obj [("nextPageToken", .str "abc")])]

def usersPage : Response :=
  ⟨200, some "application/json", none, utf8Encode (print usersDocument)⟩

theorem page_users : Page usersRoute usersPage "abc" := by
  refine ⟨by decide, by decide +kernel, by decide, ?_, by decide⟩
  refine ⟨[("pagination", .map [("nextPageToken", .str "abc")]), ("users", .slice [])],
    [("nextPageToken", .str "abc")], ?_, ?_, rfl, rfl⟩
  · rw [unmarshalMap, usersPage, utf8Decode_utf8Encode,
      parse_print usersDocument ⟨trivial, ⟨trivial, trivial⟩, trivial⟩ (by decide)]
    rfl
  · intro v hv
    obtain rfl := Option.some.inj hv
    exact ⟨[], rfl⟩

theorem users_link_continues :
    ∃ link next, NextLink (middleware (fun _ => usersPage) usersConfig (usersRequest "")) link ∧
      follow (usersRequest "") link = some next ∧
      Continues (fun key => key = bytesOf "filter" ∨ key = bytesOf "sort") (usersRequest "") "abc"
        next := by
  obtain ⟨⟨link, hlink⟩, hall⟩ := next_link_continues_iff (T := Unit) (D := Unit) id
    (fun key => key = bytesOf "filter" ∨ key = bytesOf "sort") (by decide) (fun _ => usersPage)
    usersConfig (usersRequest "") (usersRequest "") usersRoute "abc" (by decide) (by decide)
    (by decide +kernel) rfl rfl page_users
  have hplain : PlainPath (usersRequest "").Path :=
    ⟨by decide +kernel, by decide +kernel, by decide +kernel⟩
  obtain ⟨next, hnext, hcontinues⟩ := (hall link hlink).1.mpr
    ⟨hplain, by decide +kernel, fun _ _ => rfl⟩
  exact ⟨link, next, hlink, hnext, hcontinues⟩

/-- The filter of the first request. -/
def activeFilter : Filter := .clause "status" .opEq (.scalar (.str "active")) none

/-- The next link of a filtered list has no filter, so a keyset token of that list is refused. -/
theorem filter_not_in_link :
    NextLink (middleware (fun _ => usersPage) usersConfig (usersRequest "filter=active"))
      "/v1/users?page_token=abc" ∧
    paramsOf (usersRequest "filter=active") (bytesOf "filter") = [bytesOf "active"] ∧
    (∃ next, follow (usersRequest "filter=active") "/v1/users?page_token=abc" = some next ∧
      paramsOf next (bytesOf "filter") = []) ∧
    ∀ (sha256 : List UInt8 → List UInt8) (cur : KeysetCursor),
      cur.Fingerprint = Fingerprint.fingerprint sha256 [] activeFilter →
      Fingerprint.fingerprint sha256 [] activeFilter ≠ Fingerprint.fingerprint sha256 [] .nil →
      ∀ (T D : Type) (r : Reader T D), r.sort = [] → r.Filter = .nil →
        ∀ ks cols order userF limit,
          keysetPage sha256 cur ks cols order userF limit r = .error (.err (invalidInput
            "page token does not match the current query (sort or filter changed)")) := by
  have hroute : usersConfig.matchRoute "GET" (bytesOf "/v1/users") = some usersRoute := by
    decide +kernel
  have hlink := nextLink_middleware (fun _ => usersPage) usersConfig
    (r := usersRequest "filter=active") (by decide) (by decide) hroute rfl rfl page_users
  refine ⟨?_, by decide +kernel, ⟨usersRequest "page_token=abc", by decide +kernel,
    by decide +kernel⟩, ?_⟩
  · rwa [show emitted (usersRequest "filter=active") "abc" = "/v1/users?page_token=abc" by
      decide +kernel] at hlink
  · intro sha256 cur hcur hne T D r hsort hfilter ks cols order userF limit
    refine keysetPage_rejects sha256 (fun haccepts => hne ?_)
    rw [← hcur, haccepts, hsort, hfilter]

end Users

end KnowledgeEngine.JsonApiLinks
