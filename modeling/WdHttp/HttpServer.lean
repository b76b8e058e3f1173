import WdHttp.PlainRoutes
import WdHttp.UriUtil
import WdHttp.MultipartEncoder

/-!
# A request in the server

`HttpServer::process` of wfrest with what it reads of a request, and the two forms a handler
may ask for. The uri is taken apart by the parser of the library below; the path it
finds is encoded before the route is looked for.
-/

set_option autoImplicit false

namespace WdHttp.HttpServer
open WdHttp.PosixFile WdHttp.StrUtil WdHttp.CodeUtil WdHttp.UriUtil WdHttp.RouteTable
open WdHttp.PlainRoutes WdHttp.MultipartForm WdHttp.MultipartEncoder

/-- A header that is missing is read as an empty one. -/
structure HttpReq where
  method : Bytes
  requestUri : Bytes
  host : Bytes
  contentType : Bytes
  body : Bytes

/-- The path and, if there is one, the query of a uri. -/
abbrev UriParser := Bytes → Option (Bytes × Option Bytes)

/-- `ContentType::to_enum`; a type stands for its name. -/
def toEnum (contentType : Bytes) : Option Bytes :=
  (contentTypeMap.find? fun t => t.1.isPrefixOf contentType).map Prod.fst

def strstr (s needle : Bytes) : Option Bytes :=
  if needle.isPrefixOf s then some s
  else
    match s with
    | [] => none
    | _ :: s => strstr s needle

def multipartFormData : Bytes := ascii "multipart/form-data"
def urlencoded : Bytes := ascii "application/x-www-form-urlencoded"
def boundaryEq : Bytes := ascii "boundary="

/-- The boundary that `fill_content_type` sets, empty when it sets none. -/
def fillContentType (r : HttpReq) : Option Bytes :=
  if toEnum r.contentType = some multipartFormData then
    match strstr r.contentType boundaryEq with
    | none => some []
    | some s => trimPairs (s.drop boundaryEq.length) quotes
  else some []

def form (r : HttpReq) : Option Form :=
  if toEnum r.contentType = some multipartFormData then
    (fillContentType r).bind fun boundary => parseMultipart boundary r.body
  else some fun _ => none

def formKv (r : HttpReq) : Pairs :=
  if toEnum r.contentType = some urlencoded then parsePostKv r.body else []

def strToVerb (verb : Bytes) : Verb :=
  if strcasecmp verb (ascii "GET") then .GET
  else if strcasecmp verb (ascii "PUT") then .PUT
  else if strcasecmp verb (ascii "POST") then .POST
  else if strcasecmp verb (ascii "DELETE") then .DELETE
  else if strcasecmp verb (ascii "HEAD") then .HEAD
  else if strcasecmp verb (ascii "PATCH") then .PATCH
  else .ANY

inductive Outcome (H : Type) where
  | throws
  | badRequest
  | routed (reply : Reply H) (queryParams : Pairs)
  deriving DecidableEq

/-- The path the router is asked for. -/
def routeOf (path : Bytes) : Bytes := if path = [] then [slash] else path

variable {H : Type}

/-- An exception of the router is one of `process`. -/
def outcome (queryParams : Pairs) : Reply H → Outcome H
  | .lengthError => .throws
  | reply => .routed reply queryParams

def process (parse : UriParser) (root : RouteTableNode H) (r : HttpReq) : Outcome H :=
  match fillContentType r with
  | none => .throws
  | some _ =>
    if r.host = [] then .badRequest
    else
      match parse (ascii "http://" ++ r.host ++ r.requestUri) with
      | none => .badRequest
      | some (path,query) =>
        outcome ((query.map splitQuery).getD [])
          (call root (strToVerb r.method) (urlEncode (routeOf path)))

section Encoded

theorem head?_urlEncode (s : Bytes) : (urlEncode s).head? = some slash ↔ s.head? = some slash := by
  cases s with
  | nil => rfl
  | cons c s =>
    rw [urlEncode_cons, List.head?_cons]
    constructor
    · intro h
      have hmem : slash ∈ encodeByte c := by
        rw [encodeByte] at h ⊢
        split at h
        next hk =>
          rw [if_pos hk]
          exact List.mem_singleton.mpr (Option.some.inj h).symm
        next => exact absurd (Option.some.inj h) (by decide)
      rw [slash_mem_encodeByte hmem]
    · intro h
      rw [Option.some.inj h, encodeByte_slash]
      rfl

theorem urlEncode_eq_nil {s : Bytes} : urlEncode s = [] ↔ s = [] :=
  ⟨fun h => urlEncode_injective h,fun h => by rw [h]; rfl⟩

theorem pieces_urlEncode (s : Bytes) : pieces (urlEncode s) = (pieces s).map urlEncode := by
  rw [pieces, pieces]
  by_cases hs : s = []
  · rw [if_pos hs, if_pos (urlEncode_eq_nil.mpr hs)]
    rfl
  · rw [if_neg hs, if_neg (urlEncode_eq_nil.not.mpr hs), ← splitFrom_urlEncode]
    simp only [head?_urlEncode]
    split
    next h =>
      obtain ⟨t,rfl⟩ : ∃ t, s = slash :: t := by
        cases s with
        | nil => cases h
        | cons c t => exact ⟨t,by rw [Option.some.inj h]⟩
      rw [urlEncode_cons, encodeByte_slash]
      rfl
    next => rfl

theorem cutSlash_urlEncode (s : Bytes) :
    cutSlash (urlEncode s) = (urlEncode (cutSlash s).1,(cutSlash s).2) := by
  induction s using List.reverseRecOn with
  | nil => rfl
  | append_singleton s c _ =>
    have hsnoc : urlEncode (s ++ [c]) = urlEncode s ++ encodeByte c := by
      rw [urlEncode_append, urlEncode_cons]
      exact congrArg _ (List.append_nil _)
    by_cases hc : c = slash
    · subst hc
      rw [hsnoc, encodeByte_slash]
      have hlen : 1 < (urlEncode s ++ [slash]).length ↔ 1 < (s ++ [slash]).length := by
        rw [List.length_append, List.length_append, List.length_singleton, Nat.lt_add_left_iff_pos,
          Nat.lt_add_left_iff_pos, List.length_pos_iff, List.length_pos_iff, Ne, urlEncode_eq_nil]
      have hlast : ∀ t : Bytes, endsWith (t ++ [slash]) slash = true := by
        intro t
        rw [endsWith, List.getLast?_concat]
        exact decide_eq_true rfl
      rw [cutSlash, cutSlash]
      simp only [hlast, hlen, and_true, List.dropLast_concat]
      split
      · rfl
      · rw [hsnoc, encodeByte_slash]
    · have hno : endsWith (urlEncode s ++ encodeByte c) slash = false := by
        have hne : encodeByte c ≠ [] := by
          rw [encodeByte]
          split
          · exact List.cons_ne_nil _ _
          · exact List.cons_ne_nil _ _
        rw [endsWith, List.getLast?_append_of_ne_nil _ hne]
        apply decide_eq_false
        intro h
        exact hc (slash_mem_encodeByte (List.mem_of_getLast? h))
      have hno' : endsWith (s ++ [c]) slash = false := by
        rw [endsWith, List.getLast?_concat]
        exact decide_eq_false fun h => hc (Option.some.inj h)
      rw [cutSlash, cutSlash, hsnoc, hno, hno']
      simp [hsnoc]

theorem target_urlEncode (path : Bytes) :
    target (urlEncode path) = (target path).map urlEncode := by
  rw [target, target, cutSlash_urlEncode, pieces_urlEncode]

theorem serves_urlEncode {rs : List (Route H)} (hk : ∀ r ∈ rs, ∀ k ∈ r.key, urlEncode k = k)
    (ks ts : List Bytes) : Serves rs ks (ts.map urlEncode) ↔ Serves rs ks ts := by
  have hinj := List.map_injective_iff.mpr urlEncode_injective
  apply and_congr_right
  rintro ⟨r,hr,rfl⟩
  have hself : r.key.map urlEncode = r.key := by
    conv_rhs => rw [← List.map_id r.key]
    exact List.map_congr_left fun k hmem => hk r hr k hmem
  have heq : ts.map urlEncode = r.key ↔ ts = r.key := by
    conv_lhs => rw [← hself]
    exact hinj.eq_iff
  have hpre : r.key <+: ts.map urlEncode ↔ r.key <+: ts := by
    constructor
    · intro h
      obtain ⟨l,hl,hkey⟩ := List.prefix_map_iff.mp h
      rw [← hself] at hkey
      exact hinj hkey ▸ hl
    · intro h
      have hmap := h.map urlEncode
      rwa [hself] at hmap
  rw [heq, hpre]

end Encoded

theorem outcome_handled_iff {queryParams q : Pairs} {reply : Reply H} {h : H} {p m : Bytes}
    {params : Params} : outcome queryParams reply = .routed (.handled h p params m) q ↔
      reply = .handled h p params m ∧ queryParams = q := by
  cases reply <;> simp [outcome]

/-- Which handler a request reaches, and with which query. -/
theorem process_handled_iff {rs : List (Route H)} (hne : rs ≠ [])
    (hs : ∀ r ∈ rs, ∀ k ∈ r.key, Static k) (hk : ∀ r ∈ rs, ∀ k ∈ r.key, urlEncode k = k)
    (parse : UriParser) (r : HttpReq) (h : H) (p : Bytes) (params : Params) (m : Bytes)
    (q : Pairs) :
    process parse (table rs) r = .routed (.handled h p params m) q ↔
      fillContentType r ≠ none ∧ r.host ≠ [] ∧ params = [] ∧ m = [] ∧
      ∃ path query, parse (ascii "http://" ++ r.host ++ r.requestUri) = some (path,query) ∧
        (query.map splitQuery).getD [] = q ∧
        ∃ ks, Serves rs ks (target (routeOf path)) ∧
          chosen rs ks (strToVerb r.method) = some h ∧ (entry rs ks).path = p := by
  have hcall : ∀ path, call (table rs) (strToVerb r.method) (urlEncode (routeOf path)) =
      .handled h p params m ↔ params = [] ∧ m = [] ∧ ∃ ks, Serves rs ks (target (routeOf path)) ∧
        chosen rs ks (strToVerb r.method) = some h ∧ (entry rs ks).path = p := by
    intro path
    have htable := (call_handled_iff hne hs (strToVerb r.method) (urlEncode (routeOf path))
      h p params m)
    simpa only [target_urlEncode, serves_urlEncode hk] using htable
  rw [process]
  cases hfill : fillContentType r with
  | none => simp
  | some boundary =>
    by_cases hhost : r.host = []
    · simp [hhost]
    · cases hparse : parse (ascii "http://" ++ r.host ++ r.requestUri) with
      | none => simp [hhost]
      | some pq =>
        obtain ⟨path,query⟩ := pq
        simp only [hhost, if_false, outcome_handled_iff, hcall, Option.some.injEq,
          Prod.mk.injEq]
        constructor
        · rintro ⟨⟨hp,hm,hks⟩,hq⟩
          exact ⟨Option.some_ne_none _,hhost,hp,hm,path,query,⟨rfl,rfl⟩,hq,hks⟩
        · rintro ⟨-,-,hp,hm,path',query',⟨rfl,rfl⟩,hq,hks⟩
          exact ⟨⟨hp,hm,hks⟩,hq⟩

end WdHttp.HttpServer
