import WdHttp.HttpServer
import WdHttp.CloudUpload

/-!
# The routes of the cloud disk

The handlers that `day12/project/main.cc` registers and the requests that reach them. The
upload handler is followed into the form it asks for, up to the request that
`CloudUpload` takes from there.
-/

set_option autoImplicit false

namespace WdHttp.CloudRoutes
open WdHttp.CText WdHttp.PosixFile WdHttp.StrUtil WdHttp.CodeUtil WdHttp.UriUtil
open WdHttp.RouteTable WdHttp.PlainRoutes WdHttp.MultipartParser WdHttp.MultipartReading
open WdHttp.MultipartGrammar WdHttp.MultipartForm WdHttp.MultipartEncoder WdHttp.HttpServer
open WdHttp.CloudUpload

inductive CloudHandler where
  | uploadPage
  | upload
  | uploadSuccess
  | download
  | signupPage
  | signup
  | signinPage
  | homePage
  | authScript
  | avatar
  | signin
  | userInfo
  | fileQuery
  | downloadUrl
  deriving DecidableEq, Repr

def cloudRoutes : List (Route CloudHandler) :=
  [⟨.GET,ascii "/file/upload",.uploadPage⟩,
   ⟨.POST,ascii "/file/upload",.upload⟩,
   ⟨.GET,ascii "/file/upload/success",.uploadSuccess⟩,
   ⟨.GET,ascii "/file/download",.download⟩,
   ⟨.GET,ascii "/user/signup",.signupPage⟩,
   ⟨.POST,ascii "/user/signup",.signup⟩,
   ⟨.GET,ascii "/static/view/signin.html",.signinPage⟩,
   ⟨.GET,ascii "/static/view/home.html",.homePage⟩,
   ⟨.GET,ascii "/static/js/auth.js",.authScript⟩,
   ⟨.GET,ascii "/static/img/avatar.jpeg",.avatar⟩,
   ⟨.POST,ascii "/user/signin",.signin⟩,
   ⟨.POST,ascii "/user/info",.userInfo⟩,
   ⟨.POST,ascii "/file/query",.fileQuery⟩,
   ⟨.POST,ascii "/file/downloadurl",.downloadUrl⟩]

def uploadKey : List Bytes := [ascii "file",ascii "upload"]

/-- A route takes its own path and everything below it, the upload alone only its own. -/
def Takes (key pieces : List Bytes) : Prop := pieces = key ∨ key <+: pieces ∧ key ≠ uploadKey

section Table

theorem cloud_ne_nil : cloudRoutes ≠ [] := List.cons_ne_nil _ _

theorem cloud_static : ∀ r ∈ cloudRoutes, ∀ k ∈ r.key, Static k := by decide

theorem cloud_kept : ∀ r ∈ cloudRoutes, ∀ k ∈ r.key, urlEncode k = k := by decide

theorem cloud_verb : ∀ r ∈ cloudRoutes, r.verb ≠ .ANY := by decide

theorem cloud_distinct : ∀ r ∈ cloudRoutes, ∀ r' ∈ cloudRoutes, r.key = r'.key →
    r.route = r'.route ∧ (r.verb = r'.verb → r.handler = r'.handler) := by
  decide

theorem cloud_leaf : ∀ r ∈ cloudRoutes,
    (∀ r' ∈ cloudRoutes, r.key <+: r'.key → r'.key = r.key) ↔ r.key ≠ uploadKey := by
  decide

theorem serves_cloud (ks pieces : List Bytes) :
    Serves cloudRoutes ks pieces ↔ (∃ r ∈ cloudRoutes, r.key = ks) ∧ Takes ks pieces := by
  apply and_congr_right
  rintro ⟨r,hr,rfl⟩
  rw [Takes, cloud_leaf r hr]

theorem chosen_cloud (ks : List Bytes) (verb : Verb) (h : CloudHandler) :
    chosen cloudRoutes ks verb = some h ↔
      ∃ r ∈ cloudRoutes, r.key = ks ∧ r.verb = verb ∧ r.handler = h := by
  have hany : ∀ v, (cloudRoutes.find? fun r => r.key = ks ∧ r.verb = v).map Route.handler = some h ↔
      ∃ r ∈ cloudRoutes, r.key = ks ∧ r.verb = v ∧ r.handler = h := by
    intro v
    rw [Option.map_eq_some_iff]
    constructor
    · rintro ⟨r,hr,rfl⟩
      have hd : r.key = ks ∧ r.verb = v := by
        simpa using List.find?_some hr
      exact ⟨r,List.mem_of_find?_eq_some hr,hd.1,hd.2,rfl⟩
    · rintro ⟨r,hr,rfl,rfl,rfl⟩
      cases hf : cloudRoutes.find? fun r' => r'.key = r.key ∧ r'.verb = r.verb with
      | none => exact absurd (List.find?_eq_none.mp hf r hr) (by simp)
      | some r' =>
        have hd : r'.key = r.key ∧ r'.verb = r.verb := by
          simpa using List.find?_some hf
        obtain ⟨hk,hv⟩ := hd
        exact ⟨r',rfl,(cloud_distinct r' (List.mem_of_find?_eq_some hf) r hr hk).2 hv⟩
  have hnone : (cloudRoutes.find? fun r => r.key = ks ∧ r.verb = .ANY) = none := by
    rw [List.find?_eq_none]
    intro r hr
    simp [cloud_verb r hr]
  rw [chosen, hnone, Option.map_none, Option.or_none, hany]

end Table

/-- Which request reaches which handler of the cloud disk: the first of the routes for its verb
that takes its path. -/
theorem process_cloud (parse : UriParser) (r : HttpReq) (h : CloudHandler) (p : Bytes)
    (params : Params) (m : Bytes) (q : Pairs) :
    process parse (table cloudRoutes) r = .routed (.handled h p params m) q ↔
      fillContentType r ≠ none ∧ r.host ≠ [] ∧ params = [] ∧ m = [] ∧
      ∃ path query, parse (ascii "http://" ++ r.host ++ r.requestUri) = some (path,query) ∧
        (query.map splitQuery).getD [] = q ∧
        ∃ route ∈ cloudRoutes, route.handler = h ∧ route.route = p ∧
          route.verb = strToVerb r.method ∧ Takes route.key (target (routeOf path)) := by
  rw [process_handled_iff cloud_ne_nil cloud_static cloud_kept]
  have hks : ∀ path, (∃ ks, Serves cloudRoutes ks (target (routeOf path)) ∧
      chosen cloudRoutes ks (strToVerb r.method) = some h ∧ (entry cloudRoutes ks).path = p) ↔
      ∃ route ∈ cloudRoutes, route.handler = h ∧ route.route = p ∧
        route.verb = strToVerb r.method ∧ Takes route.key (target (routeOf path)) := by
    intro path
    have hentry : ∀ route ∈ cloudRoutes, (entry cloudRoutes route.key).path = route.route := by
      intro route hr
      obtain ⟨r',hr',hk,hp⟩ := entry_path ⟨route,hr,rfl⟩
      rw [hp, (cloud_distinct r' hr' route hr hk).1]
    constructor
    · rintro ⟨ks,hserves,hchosen,hp⟩
      obtain ⟨route,hr,rfl,hverb,hh⟩ := (chosen_cloud ks _ h).mp hchosen
      refine ⟨route,hr,hh,?_,hverb,((serves_cloud _ _).mp hserves).2⟩
      rw [← hp, hentry route hr]
    · rintro ⟨route,hr,hh,hp,hverb,htakes⟩
      refine ⟨route.key,(serves_cloud _ _).mpr ⟨⟨route,hr,rfl⟩,htakes⟩,
        (chosen_cloud _ _ h).mpr ⟨route,hr,rfl,hverb,hh⟩,?_⟩
      rw [hentry route hr, hp]
  simp only [hks]

section Upload

def text (s : Bytes) : Str := s.map fun c => Char.ofNat c.toNat

/-- What the handler of `POST /file/upload` takes from a request before it opens the file. -/
def uploadRequest (r : HttpReq) (queryParams : Pairs) : Option UploadRequest :=
  (form r).map fun f =>
    let fileInfo := (f (ascii "file")).getD ([],[])
    ⟨text ((queryParams.lookup (ascii "username")).getD []),text fileInfo.1,fileInfo.2⟩

theorem head?_of_isPrefixOf {n s : Bytes} (hn : n ≠ []) (h : n.isPrefixOf s = true) :
    n.head? = s.head? := by
  obtain ⟨t,rfl⟩ := List.isPrefixOf_iff_prefix.mp h
  rw [List.head?_append_of_ne_nil _ hn]

theorem toEnum_multipart (rest : Bytes) :
    toEnum (multipartFormData ++ rest) = some multipartFormData := by
  have hmap : ∀ t ∈ contentTypeMap, t.1 ≠ [] ∧
      (t.1.head? = some 109 → t.1 = multipartFormData) := by
    decide
  have hhead : (multipartFormData ++ rest).head? = some 109 := by
    rw [List.head?_append_of_ne_nil _ (by decide)]
    decide
  rw [toEnum]
  cases hf : contentTypeMap.find? fun t => t.1.isPrefixOf (multipartFormData ++ rest) with
  | none =>
    have hmem : (multipartFormData,ascii "mp") ∈ contentTypeMap := by decide
    have hno := List.find?_eq_none.mp hf _ hmem
    exact absurd (List.isPrefixOf_iff_prefix.mpr (List.prefix_append _ _)) hno
  | some t =>
    obtain ⟨hne,honly⟩ := hmap t (List.mem_of_find?_eq_some hf)
    have hpre : t.1.isPrefixOf (multipartFormData ++ rest) = true := by
      simpa using List.find?_some hf
    rw [Option.map_some, honly ((head?_of_isPrefixOf hne hpre).trans hhead)]

theorem strstr_append {a needle : Bytes} {c : UInt8} (hc : needle.head? = some c) (ha : c ∉ a)
    (b : Bytes) : strstr (a ++ (needle ++ b)) needle = some (needle ++ b) := by
  have hne : needle ≠ [] := fun h => by rw [h] at hc; cases hc
  induction a with
  | nil =>
    rw [List.nil_append, strstr.eq_def,
      if_pos (List.isPrefixOf_iff_prefix.mpr (List.prefix_append _ _))]
  | cons d a ih =>
    rw [List.mem_cons, not_or] at ha
    have hno : ¬ needle.isPrefixOf (d :: (a ++ (needle ++ b))) = true := by
      intro h
      have hhead := head?_of_isPrefixOf hne h
      rw [hc] at hhead
      exact ha.1 (Option.some.inj hhead)
    rw [List.cons_append, strstr.eq_def, if_neg hno]
    exact ih ha.2

theorem trimPairs_plain {B : Bytes} (h : B.head? ≠ some 34 ∧ B.head? ≠ some 39) :
    trimPairs B quotes = some B := by
  rw [trimPairs, if_neg]
  simp [quotes, h.1, h.2]

theorem foldl_store (its : List Item) (mp : Form) (name : Bytes) :
    its.foldl store mp name =
      ((its.reverse.find? fun it => it.name = name).map fun it => (it.filename,it.content)).or
        (mp name) := by
  induction its using List.reverseRecOn with
  | nil => rfl
  | append_singleton its it ih =>
    rw [List.foldl_append, List.reverse_append, List.reverse_singleton, List.singleton_append]
    by_cases hn : it.name = name
    · rw [List.find?_cons_of_pos (by simpa using hn), ← hn]
      exact Function.update_self _ _ _
    · rw [List.find?_cons_of_neg (by simpa using hn), ← ih]
      exact Function.update_of_ne (Ne.symm hn) _ _

/-- A form posted to the upload handler, as a browser posts it. -/
structure Posted (parse : UriParser) (r : HttpReq) (path query B : Bytes) (its : List Item)
    (epilogue : Bytes) : Prop where
  verb : strToVerb r.method = .POST
  host : r.host ≠ []
  uri : parse (ascii "http://" ++ r.host ++ r.requestUri) = some (path,some query)
  path : target (routeOf path) = uploadKey
  contentType : r.contentType = multipartFormData ++ (ascii "; " ++ (boundaryEq ++ B))
  boundary_quotes : B.head? ≠ some 34 ∧ B.head? ≠ some 39
  boundary_cr : cr ∉ B
  boundary_nul : 0 ∉ B
  body : r.body = bodyText (dashed B) (its.map Item.part) epilogue
  entries : Entries B its

variable {parse : UriParser} {r : HttpReq} {path query B : Bytes} {its : List Item}
  {epilogue : Bytes}

theorem Posted.multipart (h : Posted parse r path query B its epilogue) :
    toEnum r.contentType = some multipartFormData := by
  rw [h.contentType]
  exact toEnum_multipart _

theorem Posted.fill (h : Posted parse r path query B its epilogue) :
    fillContentType r = some B := by
  have hstr := @strstr_append (multipartFormData ++ ascii "; ") boundaryEq 98 (by decide)
    (by decide) B
  rw [List.append_assoc] at hstr
  rw [fillContentType, if_pos h.multipart, h.contentType, hstr]
  dsimp only
  rw [List.drop_left, trimPairs_plain h.boundary_quotes]

theorem Posted.form (h : Posted parse r path query B its epilogue) :
    form r = some ((kept false its).foldl store fun _ => none) := by
  rw [HttpServer.form, if_pos h.multipart, h.fill, Option.bind_some, h.body]
  exact parseMultipart_items h.boundary_cr h.boundary_nul h.entries epilogue

/-- The file of the form: the last of its name that the decoder keeps. -/
def postedFile (its : List Item) : Option Item :=
  (kept false its).reverse.find? fun it => it.name = ascii "file"

/-- A form that is posted reaches the upload handler, and the handler takes from it the name and
the bytes of the file as they were posted. -/
theorem upload_received (h : Posted parse r path query B its epilogue) :
    process parse (table cloudRoutes) r =
      .routed (.handled .upload (ascii "/file/upload") [] []) (splitQuery query) ∧
    uploadRequest r (splitQuery query) =
      some ⟨text (((splitQuery query).lookup (ascii "username")).getD []),
        text (((postedFile its).map Item.filename).getD []),
        ((postedFile its).map Item.content).getD []⟩ := by
  constructor
  · rw [process_cloud]
    refine ⟨?_,h.host,rfl,rfl,path,some query,h.uri,rfl,
      ⟨.POST,ascii "/file/upload",.upload⟩,List.mem_cons_of_mem _ List.mem_cons_self,rfl,rfl,
      h.verb.symm,Or.inl ?_⟩
    · rw [h.fill]
      exact Option.some_ne_none _
    · rw [h.path]
      decide
  · rw [uploadRequest, h.form, Option.map_some, foldl_store, Option.or_none, ← postedFile]
    cases postedFile its <;> rfl

def postedItem : Item := ⟨ascii "file",ascii "a.txt",some (ascii "text/plain"),ascii "hello"⟩

def sampleParse : UriParser := fun uri =>
  let rest := uri.drop (ascii "http://h").length
  some (rest.takeWhile (· ≠ 63),some ((rest.dropWhile (· ≠ 63)).drop 1))

def postedRequest : HttpReq where
  method := ascii "POST"
  requestUri := ascii "/file/upload?username=u"
  host := ascii "h"
  contentType := ascii "multipart/form-data; boundary=b"
  body := bodyText (dashed (ascii "b")) [postedItem.part] []

theorem posted_sample : Posted sampleParse postedRequest (ascii "/file/upload")
    (ascii "username=u") (ascii "b") [postedItem] [] where
  verb := by decide
  host := by decide
  uri := by decide
  path := by decide
  contentType := by decide
  boundary_quotes := by decide
  boundary_cr := by decide
  boundary_nul := by decide
  body := rfl
  entries := by
    refine ⟨by decide,by decide,by decide,by decide,?_,by decide⟩
    intro it hit type htype
    obtain rfl := List.mem_singleton.mp hit
    obtain rfl := Option.some.inj htype
    refine ⟨by decide,fun b hb => ?_⟩
    obtain rfl := Option.some.inj hb
    decide

theorem upload_received_sample :
    process sampleParse (table cloudRoutes) postedRequest =
      .routed (.handled .upload (ascii "/file/upload") [] []) (splitQuery (ascii "username=u")) ∧
    uploadRequest postedRequest (splitQuery (ascii "username=u")) =
      some ⟨text (((splitQuery (ascii "username=u")).lookup (ascii "username")).getD []),
        text (((postedFile [postedItem]).map Item.filename).getD []),
        ((postedFile [postedItem]).map Item.content).getD []⟩ :=
  upload_received posted_sample

end Upload

end WdHttp.CloudRoutes
