import WdHttp.MuploadProgress
import WdHttp.MuploadSoundness
import WdHttp.JsonDump

/-!
# Requests of the chunked-upload servers

What `process` does with the method, the target and the body of a request before
it starts any task. The target is cut at the positions that `find` returns, where
a missing delimiter gives the largest number. The body is parsed up to its first
NUL; the parser is not part of the source, the conversions of its values are those
of the bundled `json.hpp`. Nothing catches an exception, so one ends the server.
-/

set_option autoImplicit false

namespace WdHttp.MuploadRequest
open WdHttp.CText WdHttp.PosixFile WdHttp.RedisHash WdHttp.MuploadServer WdHttp.MuploadHistory
open WdHttp.MuploadPlan WdHttp.MuploadProgress WdHttp.MuploadSoundness WdHttp.PartialRun
open WdHttp.JsonDump

inductive Fault where
  | outOfRange
  | parseError
  | typeError
  | invalidUtf8
  deriving DecidableEq, Repr

def npos : ℕ := 2^64-1

def find (s : Str) (c : Char) : ℕ := (s.findIdx? fun d => d = c).getD npos

def substr (s : Str) (pos n : ℕ) : Except Fault Str :=
  if s.length < pos then .error .outOfRange else .ok ((s.drop pos).take n)

/-- `s.substr(0, s.find(c))`. -/
def before (s : Str) (c : Char) : Except Fault Str := substr s 0 (find s c)

/-- `s.substr(s.find(c) + 1)`. -/
def after (s : Str) (c : Char) : Except Fault Str := substr s ((find s c+1)%2^64) npos

/-- The values of the parser; of a floating number only its integral part is used. -/
inductive Json where
  | null
  | boolean (b : Bool)
  | numberInteger (n : ℤ)
  | numberUnsigned (n : ℕ)
  | numberFloat (truncated : ℤ)
  | string (s : Str)
  | array (items : List Json)
  | object (members : List (Str × Json))

/-- `operator[]`. A member that is not there, also of `null`, is `null`. -/
def Json.at (j : Json) (key : Str) : Except Fault Json :=
  match j with
  | .null => .ok .null
  | .object members => .ok ((members.lookup key).getD .null)
  | _ => .error .typeError

def Json.toStr : Json → Except Fault Str
  | .string s => .ok s
  | _ => .error .typeError

/-- The conversion to `int`, before the reduction of integers. A floating number that no `int`
holds has no defined conversion; on x86-64 it becomes the least `int`. -/
def Json.toNumber : Json → Except Fault ℤ
  | .numberUnsigned n => .ok n
  | .numberInteger n => .ok n
  | .numberFloat n => .ok (if IsInt n then n else -2^31)
  | .boolean b => .ok (if b then 1 else 0)
  | _ => .error .typeError

structure Request where
  method : Str
  uri : Str
  body : Bytes
  time : Clock

abbrev Parse := Bytes → Option Json

def cBody (body : Bytes) : Bytes := body.takeWhile (· ≠ 0)

def postText : Str := "POST".toList
def getText : Str := "GET".toList
def initPath : Str := "/file/mupload/init".toList
def uppartPath : Str := "/file/mupload/uppart".toList
def completePath : Str := "/file/mupload/complete".toList
def filenameText : Str := "filename".toList
def filehashText : Str := "filehash".toList
def filesizeText : Str := "filesize".toList

def initRequest (parse : Parse) (q : Request) : Except Fault InitRequest := do
  let fileInfo ← (parse (cBody q.body)).elim (.error .parseError) .ok
  let filename ← (← fileInfo.at filenameText).toStr
  let filehash ← (← fileInfo.at filehashText).toStr
  let filesize ← (← fileInfo.at filesizeText).toNumber
  .ok ⟨filename,filehash,filesize,q.time⟩

def replyDoc (i : InitReply) : Doc :=
  .object ([("chunkcount".toList,.integer i.chunkcount)] ++
    (i.chunksize.map fun n => ("chunksize".toList,Doc.integer n)).toList ++
    [("filehash".toList,.string i.filehash),("filesize".toList,.integer i.filesize),
    ("status".toList,.string i.status),("uploadID".toList,.string i.uploadID)])

def uppartQuery (query : Str) : Except Fault (Str × Str) := do
  let uploadIDKV ← before query '&'
  let chkidxKV ← after query '&'
  let uploadID ← after uploadIDKV '='
  let chkidx ← after chkidxKV '='
  .ok (uploadID,chkidx)

/-- The tasks that were started, as the request they belong to, and what escaped. -/
structure Processed where
  issued : Option Flight
  fault : Option Fault

def threw (f : Fault) : Processed := ⟨none,some f⟩

def processInit (v : Server) (parse : Parse) (q : Request) : Processed :=
  match initRequest parse q with
  | .error f => threw f
  | .ok r => ⟨some (.init r fun _ => 0),
    if (dump (replyDoc (uppartInfo v r))).isSome then none else some .invalidUtf8⟩

def processUppart (q : Request) (query : Str) : Processed :=
  match uppartQuery query with
  | .error f => threw f
  | .ok (u,c) => ⟨some (.uppart u c q.body .hget),none⟩

def processComplete (query : Str) : Processed :=
  match after query '=' with
  | .error f => threw f
  | .ok u => ⟨some (.complete u .hgetall),none⟩

def splitUri (uri : Str) : Except Fault (Str × Str) := do
  let path ← before uri '?'
  let query ← after uri '?'
  .ok (path,query)

def process (v : Server) (parse : Parse) (q : Request) : Processed :=
  match splitUri q.uri with
  | .error f => threw f
  | .ok (path,query) =>
    if q.method = postText ∧ path = initPath then processInit v parse q
    else if q.method = postText ∧ path = uppartPath then processUppart q query
    else if q.method = getText ∧ path = completePath then processComplete query
    else ⟨none,none⟩

theorem before_eq (s : Str) (c : Char) : before s c = .ok (s.take (find s c)) := by
  simp [before, substr]

theorem after_ok (s : Str) (c : Char) : ∃ t, after s c = .ok t := by
  have hpos : (find s c+1)%2^64 ≤ s.length := by
    unfold find
    cases hi : s.findIdx? fun d => d = c with
    | none => simp [npos]
    | some i =>
      have hlt := (List.findIdx?_eq_some_iff_getElem.mp hi).1
      have := Nat.mod_le (i+1) (2^64)
      simp only [Option.getD_some]
      omega
  exact ⟨_,by rw [after, substr, if_neg (by omega)]⟩

theorem splitUri_ok (uri : Str) : ∃ query, splitUri uri = .ok (uri.take (find uri '?'),query) := by
  obtain ⟨query,hq⟩ := after_ok uri '?'
  exact ⟨query,by rw [splitUri, before_eq, hq]; rfl⟩

theorem uppartQuery_ok (query : Str) : ∃ u c, uppartQuery query = .ok (u,c) := by
  obtain ⟨kv,hkv⟩ := after_ok query '&'
  obtain ⟨u,hu⟩ := after_ok (query.take (find query '&')) '='
  obtain ⟨c,hc⟩ := after_ok kv '='
  refine ⟨u,c,?_⟩
  rw [uppartQuery, before_eq, hkv]
  simp only [bind, Except.bind, hu, hc]

def InitRoute (q : Request) : Prop := q.method = postText ∧ q.uri.take (find q.uri '?') = initPath

def WellTyped (j : Json) : Prop :=
  ∃ members, j = .object members ∧
    (∃ s, members.lookup filenameText = some (.string s)) ∧
    (∃ s, members.lookup filehashText = some (.string s)) ∧
    ((∃ n, members.lookup filesizeText = some (.numberInteger n)) ∨
      ∃ n, members.lookup filesizeText = some (.numberUnsigned n))

/-- The body is an object with the three fields of their types. -/
def WellFormed (parse : Parse) (q : Request) : Prop :=
  ∃ j, parse (cBody q.body) = some j ∧ WellTyped j

def Proper (parse : Parse) (q : Request) : Prop := InitRoute q → WellFormed parse q

/-- The parser accepts strings of UTF-8 only. -/
def ParsesUtf8 (parse : Parse) : Prop :=
  ∀ body members key s, parse body = some (.object members) →
    members.lookup key = some (.string s) → utf8 s

theorem initRequest_ok (parse : Parse) (hp : ParsesUtf8 parse) (q : Request)
    (h : WellFormed parse q) : ∃ r, initRequest parse q = .ok r ∧ utf8 r.filehash := by
  obtain ⟨j,hj,members,rfl,⟨name,hname⟩,⟨hash,hhash⟩,hsize⟩ := h
  have hu := hp _ members _ hash hj hhash
  obtain ⟨n,hn⟩ : ∃ n, ((members.lookup filesizeText).getD .null).toNumber = .ok n := by
    rcases hsize with ⟨n,hn⟩ | ⟨n,hn⟩
    · exact ⟨n,by rw [hn]; rfl⟩
    · exact ⟨n,by rw [hn]; rfl⟩
  refine ⟨⟨name,hash,n,q.time⟩,?_,hu⟩
  simp only [initRequest, hj, Option.elim_some, Json.at, bind, Except.bind, hname, hhash,
    Option.getD_some, Json.toStr, hn]

theorem timeStamp_ascii (t : Clock) (c : Char) (h : c ∈ timeStamp t) : c.toNat < 128 := by
  simp only [timeStamp, List.mem_append, List.mem_cons] at h
  rcases h with h | rfl | h
  · exact isDigit_ascii c (pad02_digits _ c h)
  · decide
  · exact isDigit_ascii c (pad02_digits _ c h)

theorem uploadID_utf8 (v : Server) (t : Clock) : utf8 (uploadID v t) := by
  apply utf8_ascii
  intro c h
  rw [uploadID, List.mem_append] at h
  rcases h with h | h
  · have huser : v.user.all (·.toNat < 128) = true := by
      cases v <;> decide +kernel
    exact of_decide_eq_true (List.all_eq_true.mp huser c h)
  · exact timeStamp_ascii t c h

theorem replyDoc_utf8 (v : Server) (r : InitRequest) :
    (texts (replyDoc (uppartInfo v r))).all utf8 = utf8 r.filehash := by
  have h1 : utf8 "chunkcount".toList := by decide +kernel
  have h2 : utf8 "chunksize".toList := by decide +kernel
  have h3 : utf8 "filehash".toList := by decide +kernel
  have h4 : utf8 "filesize".toList := by decide +kernel
  have h5 : utf8 "status".toList := by decide +kernel
  have h6 : utf8 "uploadID".toList := by decide +kernel
  have h7 : utf8 "OK".toList := by decide +kernel
  cases v with
  | myDay08 =>
    simp only [replyDoc, uppartInfo, Option.map_none, Option.toList_none, List.append_nil,
      List.cons_append, List.nil_append, texts, memberTexts, List.all_cons, List.all_nil,
      h1, h3, h4, h5, h6, h7, uploadID_utf8, Bool.true_and, Bool.and_true]
  | day08 =>
    simp only [replyDoc, uppartInfo, Option.map_some, Option.toList_some,
      List.cons_append, List.nil_append, texts, memberTexts, List.all_cons, List.all_nil,
      h1, h2, h3, h4, h5, h6, h7, uploadID_utf8, Bool.true_and, Bool.and_true]

theorem process_route (v : Server) (parse : Parse) (q : Request) (h : InitRoute q) :
    process v parse q = processInit v parse q := by
  obtain ⟨query,hs⟩ := splitUri_ok q.uri
  simp only [process, hs]
  exact if_pos h

theorem process_proper (v : Server) (parse : Parse) (hp : ParsesUtf8 parse) (q : Request)
    (h : Proper parse q) : (process v parse q).fault = none := by
  by_cases hi : InitRoute q
  · obtain ⟨r,hr,hu⟩ := initRequest_ok parse hp q (h hi)
    rw [process_route v parse q hi, processInit, hr]
    simp only [dump_isSome, replyDoc_utf8, hu, if_true]
  · obtain ⟨query,hs⟩ := splitUri_ok q.uri
    obtain ⟨u,c,hq⟩ := uppartQuery_ok query
    obtain ⟨u',hc⟩ := after_ok query '='
    simp only [process, hs]
    rw [if_neg (show ¬ (_ ∧ _) from hi), processUppart, hq, processComplete, hc]
    split_ifs <;> rfl

theorem process_init (v : Server) (parse : Parse) (q : Request) (hi : InitRoute q)
    (hf : (process v parse q).fault = none) :
    ∃ r n, (process v parse q).issued = some (.init r n) := by
  rw [process_route v parse q hi, processInit] at hf ⊢
  split at hf
  · cases hf
  · rename_i r hr
    exact ⟨r,_,rfl⟩

/-- The server with its uploads, and whether an exception has ended it. -/
structure Web where
  state : State
  down : Bool

inductive Input where
  | request (id : ℕ) (q : Request)
  | task (e : Event)

def arrives : Event → Bool
  | .init _ _ => true
  | .uppart _ _ _ _ => true
  | .complete _ _ => true
  | _ => false

/-- The callback of a complete request is the only one that can throw. -/
def raised (s : State) : Event → Bool
  | .hgetall id _ _ =>
    match s.flights id with
    | some (.complete _ .threw) => true
    | _ => false
  | _ => false

def webStep (h : Host) (parse : Parse) (w : Web) : Input → Option Web
  | .request id q =>
    if w.down then none
    else
      match (process h.server parse q).issued with
      | none => some ⟨w.state,(process h.server parse q).fault.isSome⟩
      | some f => (step h w.state (arrival id f)).map fun s =>
        ⟨s,(process h.server parse q).fault.isSome⟩
  | .task e =>
    if w.down ∨ arrives e then none else (step h w.state e).map fun s => ⟨s,raised s e⟩

def webStart (disk : Files) : Web := ⟨start disk,false⟩

section Inversion

variable {h : Host} {parse : Parse} {w w' : Web}

theorem request_inv {id : ℕ} {q : Request} (hs : webStep h parse w (.request id q) = some w') :
    w.down = false ∧ w'.down = (process h.server parse q).fault.isSome ∧
      (w'.state = w.state ∧ (process h.server parse q).issued = none ∨
        ∃ f, (process h.server parse q).issued = some f ∧
          step h w.state (arrival id f) = some w'.state) := by
  simp only [webStep] at hs
  split at hs
  · cases hs
  · rename_i hd
    refine ⟨by simpa using hd,?_⟩
    split at hs
    · rename_i hn
      cases hs
      exact ⟨rfl,Or.inl ⟨rfl,hn⟩⟩
    · rename_i f hf
      obtain ⟨s,hst,rfl⟩ := Option.map_eq_some_iff.mp hs
      exact ⟨rfl,Or.inr ⟨f,hf,hst⟩⟩

theorem task_inv {e : Event} (hs : webStep h parse w (.task e) = some w') :
    w.down = false ∧ step h w.state e = some w'.state ∧ w'.down = raised w'.state e := by
  simp only [webStep] at hs
  split at hs
  · cases hs
  · rename_i hd
    obtain ⟨s,hst,rfl⟩ := Option.map_eq_some_iff.mp hs
    exact ⟨by simpa using (not_or.mp hd).1,hst,rfl⟩

end Inversion

/-- Under a key whose fields were all written by the server, the callback of a
complete request finds a number. -/
theorem faithful_answers (v : Server) (u : Str) (s : State) (hF : Faithful v u s) (l : List Entry)
    (hl : Listing (s.redis u) l) (junk : ℤ) : ∃ p, completePhase junk (hgetall l) = .answered p := by
  cases hx : (s.redis u).lookup chunkcountField with
  | none =>
    have h0 : ∀ x, (s.redis u).lookup chunkcountField = some x → stoi x = some 0 := by
      intro x hx'
      rw [hx] at hx'
      cases hx'
    exact ⟨_,completePhase_listing _ l hl junk 0 h0⟩
  | some x =>
    obtain ⟨id,r,n,-,-,hread⟩ := faithful_chunkcount v u x s hF hx
    refine ⟨_,completePhase_listing _ l hl junk (chunkcount v r) ?_⟩
    intro y hy
    rw [hx] at hy
    cases hy
    exact hread

theorem not_raised (h : Host) (s t : State) (e : Event) (hF : ∀ u, Faithful h.server u s)
    (hs : step h s e = some t) : raised t e = false := by
  cases e with
  | hgetall id listing junk =>
    obtain ⟨u,-,hl,rfl⟩ := hgetall_inv hs
    obtain ⟨p,hp⟩ : ∃ p, completePhase junk (replyArray listing) = .answered p := by
      cases listing with
      | none => exact ⟨⟨junk,0⟩,rfl⟩
      | some l => exact faithful_answers h.server u s (hF u) l (hl l rfl) junk
    simp [raised, hp]
  | _ => rfl

theorem up_step (h : Host) (parse : Parse) (hp : ParsesUtf8 parse) (w w' : Web) (e : Input)
    (hF : ∀ u, Faithful h.server u w.state)
    (hg : ∀ id q, e = .request id q → Proper parse q) (hs : webStep h parse w e = some w') :
    w'.down = false ∧ ∀ u, Faithful h.server u w'.state := by
  cases e with
  | request id q =>
    obtain ⟨-,hd,hstate⟩ := request_inv hs
    rw [process_proper h.server parse hp q (hg id q rfl)] at hd
    refine ⟨hd,?_⟩
    rcases hstate with ⟨hst,-⟩ | ⟨f,-,hst⟩
    · rw [hst]
      exact hF
    · exact fun u => faithful_step h u _ _ _ (hF u) hst
  | task e =>
    obtain ⟨-,hst,hd⟩ := task_inv hs
    rw [not_raised h _ _ e hF hst] at hd
    exact ⟨hd,fun u => faithful_step h u _ _ _ (hF u) hst⟩

theorem web_up (h : Host) (parse : Parse) (hp : ParsesUtf8 parse) (disk : Files)
    (es : List Input) (w : Web) (hr : run (webStep h parse) (webStart disk) es = some w)
    (hes : ∀ id q, .request id q ∈ es → Proper parse q) : w.down = false :=
  (along_invariant (fun w => w.down = false ∧ ∀ u, Faithful h.server u w.state)
    (fun w e w' hP hg => up_step h parse hp w w' e hP.2 hg) (webStart disk) w es
    ⟨rfl,fun u => faithful_idle h.server u _ (start_idle disk) rfl⟩
    (along_of_forall _ es (fun _ he _ id q hq => hes id q (hq ▸ he))) hr).1

/-- Every init request taken while the server is up has its tasks in flight. -/
def Started (hist : List Input) (w : Web) : Prop :=
  w.down = false → ∀ id q, .request id q ∈ hist → InitRoute q →
    ∃ r n, w.state.flights id = some (.init r n)

theorem started_step (h : Host) (parse : Parse) (hist : List Input) (w w' : Web) (e : Input)
    (ih : Started hist w) (hs : webStep h parse w e = some w') : Started (hist++[e]) w' := by
  intro hd' id q hm hi
  rw [List.mem_append, List.mem_singleton] at hm
  cases e with
  | request id' q' =>
    obtain ⟨hd,hfault,hstate⟩ := request_inv hs
    rcases hm with hm | hm
    · obtain ⟨r,n,hf⟩ := ih hd id q hm hi
      rcases hstate with ⟨hst,-⟩ | ⟨f,-,hst⟩
      · exact ⟨r,n,by rw [hst, hf]⟩
      · obtain ⟨n',hf'⟩ := init_persists _ _ _ id r n hst hf
        exact ⟨r,n',hf'⟩
    · cases hm
      rw [hd'] at hfault
      obtain ⟨r,n,hissued⟩ := process_init h.server parse q hi (by simpa using hfault.symm)
      rcases hstate with ⟨-,hn⟩ | ⟨f,hf,hst⟩
      · rw [hissued] at hn
        cases hn
      · rw [hissued] at hf
        cases hf
        obtain ⟨-,hput⟩ := arrive_inv hst
        exact ⟨r,_,by rw [hput, put_self]⟩
  | task e =>
    obtain ⟨hd,hst,-⟩ := task_inv hs
    obtain ⟨r,n,hf⟩ := ih hd id q (hm.resolve_right (by simp)) hi
    obtain ⟨n',hf'⟩ := init_persists _ _ _ id r n hst hf
    exact ⟨r,n',hf'⟩

theorem web_started (h : Host) (parse : Parse) (disk : Files) (es : List Input) (w : Web)
    (hr : run (webStep h parse) (webStart disk) es = some w) : Started es w := by
  apply history_invariant Started (fun hist w e w' hP _ => started_step h parse hist w w' e hP)
    (webStart disk) w es _ (along_true _ es) hr
  intro _ id q hm
  cases hm

/-- No exception has escaped, and an init request whose body is not what it should
be has not started a task. -/
def Safe (parse : Parse) (es : List Input) (w : Web) : Prop :=
  w.down = false ∧ ∀ id q, .request id q ∈ es → InitRoute q → ¬ WellFormed parse q →
    ∀ r n, w.state.flights id ≠ some (.init r n)

/-- A run of the server is safe exactly when the body of every init request in it
is an object with the three fields of their types. -/
theorem run_safe_iff (h : Host) (parse : Parse) (hp : ParsesUtf8 parse) (disk : Files)
    (es : List Input) (w : Web) (hr : run (webStep h parse) (webStart disk) es = some w) :
    Safe parse es w ↔ ∀ id q, .request id q ∈ es → Proper parse q := by
  constructor
  · rintro ⟨hd,hsafe⟩ id q hq hi
    by_contra hw
    obtain ⟨r,n,hf⟩ := web_started h parse disk es w hr hd id q hq hi
    exact hsafe id q hq hi hw r n hf
  · intro hes
    refine ⟨web_up h parse hp disk es w hr hes,?_⟩
    intro id q hq hi hw
    exact absurd (hes id q hq hi) hw

def bytesOf (s : Str) : Bytes := s.map fun c => UInt8.ofNat c.toNat

def initBody : Bytes :=
  bytesOf "\x7b\"filename\":\"a\",\"filehash\":\"b\",\"filesize\":5\x7d".toList

def booleanBody : Bytes :=
  bytesOf "\x7b\"filename\":\"a\",\"filehash\":\"b\",\"filesize\":true\x7d".toList

def textBody : Bytes := bytesOf "hello".toList

def members (size : Json) : List (Str × Json) :=
  [(filehashText,.string "b".toList),(filenameText,.string "a".toList),(filesizeText,size)]

def sampleParse : Parse := fun body =>
  if body = initBody then some (.object (members (.numberUnsigned 5)))
  else if body = booleanBody then some (.object (members (.boolean true)))
  else none

def initWith (body : Bytes) : Request := ⟨postText,initPath,body,⟨Fin.last 23,Fin.last 59⟩⟩

theorem members_utf8 (size : Json) (hsize : ∀ s, size ≠ .string s) (key s : Str)
    (h : (members size).lookup key = some (.string s)) : utf8 s := by
  obtain ⟨l,l',hl,-⟩ := List.lookup_eq_some_iff.mp h
  have hm : (key,Json.string s) ∈ members size := by
    rw [hl]
    simp
  simp only [members, List.mem_cons, Prod.mk.injEq, Json.string.injEq, List.not_mem_nil,
    or_false] at hm
  rcases hm with ⟨-,rfl⟩ | ⟨-,rfl⟩ | ⟨-,hs⟩
  · decide +kernel
  · decide +kernel
  · exact absurd hs.symm (hsize s)

theorem sampleParse_utf8 : ParsesUtf8 sampleParse := by
  intro body ms key s hp hl
  unfold sampleParse at hp
  split_ifs at hp
  · cases hp
    exact members_utf8 _ (by simp) key s hl
  · cases hp
    exact members_utf8 _ (by simp) key s hl

theorem initBody_wellFormed : WellFormed sampleParse (initWith initBody) := by
  refine ⟨.object (members (.numberUnsigned 5)),rfl,_,rfl,⟨_,rfl⟩,⟨_,rfl⟩,Or.inr ⟨5,rfl⟩⟩

theorem init_run_safe :
    ∃ w, run (webStep sampleHost sampleParse) (webStart fun _ => none)
        [.request 0 (initWith initBody),.task (.initHset 0 1)] = some w ∧
      Safe sampleParse [.request 0 (initWith initBody),.task (.initHset 0 1)] w := by
  refine ⟨_,rfl,?_⟩
  apply (run_safe_iff sampleHost sampleParse sampleParse_utf8 (fun _ => none) _ _ rfl).mpr
  intro id q hq _
  simp only [List.mem_cons, Input.request.injEq, reduceCtorEq, List.not_mem_nil, or_false] at hq
  rw [hq.2]
  exact initBody_wellFormed

/-- A body that is not JSON ends the server, and a truth value passes for a size. -/
theorem malformed_init_escapes :
    (∃ w, run (webStep sampleHost sampleParse) (webStart fun _ => none)
        [.request 0 (initWith textBody)] = some w ∧
      w.down = true ∧ ¬ Safe sampleParse [.request 0 (initWith textBody)] w) ∧
    ∃ w r n, run (webStep sampleHost sampleParse) (webStart fun _ => none)
        [.request 0 (initWith booleanBody)] = some w ∧
      w.state.flights 0 = some (.init r n) ∧ ¬ WellFormed sampleParse (initWith booleanBody) := by
  refine ⟨⟨_,rfl,rfl,?_⟩,⟨_,_,_,rfl,rfl,?_⟩⟩
  · rintro ⟨hd,-⟩
    cases hd
  · rintro ⟨j,hj,ms,rfl,-,-,hsize⟩
    cases hj
    rcases hsize with ⟨n,hn⟩ | ⟨n,hn⟩
    · cases hn
    · cases hn

end WdHttp.MuploadRequest
