import WdHttp.MuploadRequest

/-!
# The values in a request target

The targets of the upload servers and of the login server in `my_day06/server02.cc`
are a path, a question mark and one or two pairs. Each slice cuts at the first
occurrence of a delimiter, which may occur again further on. A target in canonical
form has no delimiter where an earlier cut would find it, and its values are read
back whatever else they hold.
-/

set_option autoImplicit false

namespace WdHttp.RequestTarget
open WdHttp.CText WdHttp.PosixFile WdHttp.MuploadServer WdHttp.MuploadRequest

theorem find_append (s t : Str) (c : Char) (hc : c ∉ s) : find (s ++ c::t) c = s.length := by
  rw [find, findIdx?_append_cons s t c hc, Option.getD_some]

theorem before_append (s t : Str) (c : Char) (hc : c ∉ s) : before (s ++ c::t) c = .ok s := by
  rw [before_eq, find_append s t c hc, List.take_left]

theorem after_append (s t : Str) (c : Char) (hc : c ∉ s) (hl : (s ++ c::t).length ≤ npos) :
    after (s ++ c::t) c = .ok t := by
  rw [List.length_append, List.length_cons] at hl
  have hn : npos = 2^64-1 := rfl
  have hmod : (s.length+1)%2^64 = s.length+1 := Nat.mod_eq_of_lt (by omega)
  have hpos : ¬ (s ++ c::t).length < s.length+1 := by
    rw [List.length_append, List.length_cons]
    omega
  have hdrop : (s ++ c::t).drop (s.length+1) = t := by
    rw [← List.drop_drop, List.drop_left, List.drop_one, List.tail_cons]
  rw [after, find_append s t c hc, hmod, substr, if_neg hpos, hdrop,
    List.take_of_length_le (by omega)]

def keyValue (key value : Str) : Str := key ++ '='::value
def pairQuery (k₁ u k₂ c : Str) : Str := keyValue k₁ u ++ '&'::keyValue k₂ c
def target (path query : Str) : Str := path ++ '?'::query

/-- A target with two values in canonical form. No string is longer than `npos`. -/
structure PairTarget where
  path : Str
  key₁ : Str
  value₁ : Str
  key₂ : Str
  value₂ : Str
  path_plain : '?' ∉ path
  key₁_plain : '&' ∉ key₁ ∧ '=' ∉ key₁
  value₁_plain : '&' ∉ value₁
  key₂_plain : '&' ∉ key₂ ∧ '=' ∉ key₂
  sized : (target path (pairQuery key₁ value₁ key₂ value₂)).length ≤ npos

/-- A target with one value in canonical form. -/
structure SingleTarget where
  path : Str
  key : Str
  value : Str
  path_plain : '?' ∉ path
  key_plain : '&' ∉ key ∧ '=' ∉ key
  sized : (target path (keyValue key value)).length ≤ npos

def PairTarget.query (q : PairTarget) : Str := pairQuery q.key₁ q.value₁ q.key₂ q.value₂
def PairTarget.uri (q : PairTarget) : Str := target q.path q.query
def PairTarget.values (q : PairTarget) : Str × Str := (q.value₁,q.value₂)

def SingleTarget.query (q : SingleTarget) : Str := keyValue q.key q.value
def SingleTarget.uri (q : SingleTarget) : Str := target q.path q.query

def uppartTarget (uri : Str) : Except Fault (Str × Str × Str) := do
  let (path,query) ← splitUri uri
  let (uploadID,chkidx) ← uppartQuery query
  .ok (path,uploadID,chkidx)

def completeTarget (uri : Str) : Except Fault (Str × Str) := do
  let (path,query) ← splitUri uri
  let uploadID ← after query '='
  .ok (path,uploadID)

/-- The slices of the login server. -/
def loginTarget (reqUrl : Str) : Except Fault (Str × Str) := do
  let query ← after reqUrl '?'
  let nameKV ← before query '&'
  let keyKV ← after query '&'
  let name ← after nameKV '='
  let key ← after keyKV '='
  .ok (name,key)

theorem splitUri_target (path query : Str) (hp : '?' ∉ path)
    (hl : (target path query).length ≤ npos) : splitUri (target path query) = .ok (path,query) := by
  rw [splitUri, target, before_append path query '?' hp, after_append path query '?' hp hl]
  rfl

theorem query_sized (path query : Str) (hl : (target path query).length ≤ npos) :
    query.length ≤ npos := by
  rw [target, List.length_append, List.length_cons] at hl
  omega

theorem after_keyValue (k v : Str) (hk : '=' ∉ k) (hl : (keyValue k v).length ≤ npos) :
    after (keyValue k v) '=' = .ok v := after_append k v '=' hk hl

theorem keyValue_plain (k v : Str) (hk : '&' ∉ k) (hv : '&' ∉ v) : '&' ∉ keyValue k v := by
  rw [keyValue, List.mem_append, List.mem_cons]
  rintro (h | h | h)
  · exact hk h
  · exact absurd h (by decide)
  · exact hv h

section Pairs

variable (q : PairTarget)

theorem first_plain : '&' ∉ keyValue q.key₁ q.value₁ :=
  keyValue_plain _ _ q.key₁_plain.1 q.value₁_plain

theorem query_lengths : (keyValue q.key₁ q.value₁).length ≤ npos ∧
    (keyValue q.key₂ q.value₂).length ≤ npos ∧ q.query.length ≤ npos := by
  have hq : q.query.length ≤ npos := query_sized q.path q.query q.sized
  have hlen : q.query.length =
      (keyValue q.key₁ q.value₁).length+((keyValue q.key₂ q.value₂).length+1) := by
    rw [PairTarget.query, pairQuery, List.length_append, List.length_cons]
  exact ⟨by omega,by omega,hq⟩

theorem uppartQuery_query : uppartQuery q.query = .ok q.values := by
  obtain ⟨h1,h2,hq⟩ := query_lengths q
  have hb : before q.query '&' = .ok (keyValue q.key₁ q.value₁) :=
    before_append _ _ '&' (first_plain q)
  have ha : after q.query '&' = .ok (keyValue q.key₂ q.value₂) :=
    after_append _ _ '&' (first_plain q) hq
  rw [uppartQuery, hb, ha]
  simp only [bind, Except.bind]
  rw [after_keyValue _ _ q.key₁_plain.2 h1]
  simp only
  rw [after_keyValue _ _ q.key₂_plain.2 h2]
  rfl

theorem splitUri_pair : splitUri q.uri = .ok (q.path,q.query) :=
  splitUri_target _ _ q.path_plain q.sized

theorem uppartTarget_uri : uppartTarget q.uri = .ok (q.path,q.values) := by
  rw [uppartTarget, splitUri_pair]
  simp only [bind, Except.bind]
  rw [uppartQuery_query]

theorem process_uppart (v : Server) (parse : Parse) (body : Bytes) (time : Clock)
    (hpath : q.path = uppartPath) :
    process v parse ⟨postText,q.uri,body,time⟩ =
      ⟨some (.uppart q.value₁ q.value₂ body .hget),none⟩ := by
  have hne : uppartPath ≠ initPath := by decide +kernel
  simp only [process, splitUri_pair, hpath, hne, and_false, if_false, true_and, if_true,
    processUppart, uppartQuery_query]
  rfl

/-- The login server cuts as uppart does, past the question mark. -/
theorem loginTarget_eq (reqUrl : Str) :
    loginTarget reqUrl = (after reqUrl '?').bind uppartQuery := rfl

theorem loginTarget_uri : loginTarget q.uri = .ok q.values := by
  have ha : after q.uri '?' = .ok q.query := after_append _ _ '?' q.path_plain q.sized
  rw [loginTarget_eq, ha]
  exact uppartQuery_query q

end Pairs

theorem after_query (q : SingleTarget) : after q.query '=' = .ok q.value :=
  after_keyValue _ _ q.key_plain.2 (query_sized q.path q.query q.sized)

theorem splitUri_single (q : SingleTarget) : splitUri q.uri = .ok (q.path,q.query) :=
  splitUri_target _ _ q.path_plain q.sized

theorem completeTarget_uri (q : SingleTarget) : completeTarget q.uri = .ok (q.path,q.value) := by
  rw [completeTarget, splitUri_single]
  simp only [bind, Except.bind]
  rw [after_query]

theorem process_complete (q : SingleTarget) (v : Server) (parse : Parse) (body : Bytes)
    (time : Clock) (hpath : q.path = completePath) :
    process v parse ⟨getText,q.uri,body,time⟩ = ⟨some (.complete q.value .hgetall),none⟩ := by
  have hne : getText ≠ postText := by decide +kernel
  simp only [process, splitUri_single, hpath, hne, false_and, if_false, true_and, if_true,
    processComplete, after_query]

/-- The slices read back the path and the values of a canonical target, so that
targets with different values are never taken for each other. -/
theorem values_read_back (q q' : PairTarget) (s : SingleTarget) :
    uppartTarget q.uri = .ok (q.path,q.value₁,q.value₂) ∧
    loginTarget q.uri = .ok (q.value₁,q.value₂) ∧
    (q.values ≠ q'.values → q.uri ≠ q'.uri ∧ loginTarget q.uri ≠ loginTarget q'.uri ∧
      uppartQuery q.query ≠ uppartQuery q'.query) ∧
    completeTarget s.uri = .ok (s.path,s.value) := by
  refine ⟨uppartTarget_uri q,loginTarget_uri q,?_,completeTarget_uri s⟩
  intro hne
  refine ⟨?_,?_,?_⟩
  · intro huri
    have hv := loginTarget_uri q
    rw [huri, loginTarget_uri q'] at hv
    exact hne (Except.ok.inj hv).symm
  · rw [loginTarget_uri q, loginTarget_uri q']
    exact fun h => hne (Except.ok.inj h)
  · rw [uppartQuery_query q, uppartQuery_query q']
    exact fun h => hne (Except.ok.inj h)

/-- `/login?name=a=b&key=c&d=?`, with delimiters inside both values. -/
def loginSample : PairTarget where
  path := "/login".toList
  key₁ := "name".toList
  value₁ := "a=b".toList
  key₂ := "key".toList
  value₂ := "c&d=?".toList
  path_plain := by decide +kernel
  key₁_plain := by decide +kernel
  value₁_plain := by decide +kernel
  key₂_plain := by decide +kernel
  sized := by decide +kernel

def otherLogin : PairTarget := { loginSample with
  value₂ := "c".toList
  sized := by decide +kernel }

def completeSample : SingleTarget where
  path := completePath
  key := "uploadID".toList
  value := "u=1&v".toList
  path_plain := by decide +kernel
  key_plain := by decide +kernel
  sized := by decide +kernel

theorem values_read_back_sample :
    loginTarget loginSample.uri = .ok ("a=b".toList,"c&d=?".toList) ∧
    loginSample.uri ≠ otherLogin.uri ∧
    completeTarget completeSample.uri = .ok (completePath,"u=1&v".toList) := by
  obtain ⟨-,hlogin,htold,hcomplete⟩ := values_read_back loginSample otherLogin completeSample
  exact ⟨hlogin,(htold (by decide +kernel)).1,hcomplete⟩

/-- The reply of Redis to `GET`, or a task that failed. -/
inductive GetResult where
  | failed
  | nil
  | string (s : Str)
  deriving DecidableEq, Repr

def notLoginText : Str := "you are not login yet!".toList
def successText : Str := "login check success!".toList
def failText : Str := "login check fail!".toList

def redisCallback (key : Str) : GetResult → Option Str
  | .failed => none
  | .nil => some notLoginText
  | .string storedKey => some (if storedKey = key then successText else failText)

def login (get : Str → GetResult) (reqUrl : Str) : Except Fault (Option Str) := do
  let (name,key) ← loginTarget reqUrl
  .ok (redisCallback key (get name))

theorem redisCallback_success (key : Str) (res : GetResult) :
    redisCallback key res = some successText ↔ res = .string key := by
  have hnot : notLoginText ≠ successText := by decide +kernel
  have hfail : failText ≠ successText := by decide +kernel
  cases res with
  | failed => simp [redisCallback]
  | nil => simp [redisCallback, hnot]
  | string storedKey =>
    by_cases hk : storedKey = key
    · simp [redisCallback, hk]
    · simp [redisCallback, hk, hfail]

/-- A canonical login is successful exactly when its key is stored for its name. -/
theorem login_success_iff (get : Str → GetResult) (q : PairTarget) :
    login get q.uri = .ok (some successText) ↔ get q.value₁ = .string q.value₂ := by
  rw [login, loginTarget_uri]
  simp only [PairTarget.values, bind, Except.bind, Except.ok.injEq]
  exact redisCallback_success q.value₂ (get q.value₁)

end WdHttp.RequestTarget
