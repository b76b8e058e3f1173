import WdHttp.SqlText
import WdHttp.CloudUpload
import WdHttp.UserSignin

/-!
# The statements of the cloud disk

Every handler of `day12/project/main.cc` that uses the database joins its
statement from fixed texts and the values of the request. The values are written
between quotes as they are. The file size, the hash of the stored file, the
encrypted password and the token come from the server.
-/

set_option autoImplicit false

namespace WdHttp.CloudSql
open WdHttp.CText WdHttp.PosixFile WdHttp.Fips180 WdHttp.SqlText
open WdHttp.CloudUpload WdHttp.UserSignin

/-- The handlers' statements, with what they are built from. An upload hashes its
file once for each of its two statements. -/
inductive Statement where
  | upload (r : UploadRequest) (first second : Bytes)
  | signup (username password : Str)
  | signinRead (username : Str)
  | signinWrite (username : Str) (now : Clock)
  | info (username : Str)
  | query (username limit : Str)
  | downloadurl (filehash : Str)

def insertFile (r : UploadRequest) (content : Bytes) : Str :=
  "INSERT INTO cloudisk.tbl_file (file_sha1,file_name,file_size,file_addr,status) VALUES('".toList
    ++ sha1Of content ++ "','".toList
    ++ r.filename ++ "',".toList
    ++ stdToString r.body.length ++ ",'".toList
    ++ filepath r.filename ++ "', 0);".toList

def insertUserFile (r : UploadRequest) (content : Bytes) : Str :=
  "INSERT INTO cloudisk.tbl_user_file (user_name, file_sha1, file_name, file_size) VALUES ('".toList
    ++ r.username ++ "','".toList
    ++ sha1Of content ++ "','".toList
    ++ r.filename ++ "',".toList
    ++ stdToString r.body.length ++ ");".toList

def uploadSql (r : UploadRequest) (first second : Bytes) : Str :=
  insertFile r first ++ insertUserFile r second

def signupSql (env : Env) (username password : Str) : Str :=
  "INSERT INTO cloudisk.tbl_user (user_name,user_pwd) VALUES( '".toList ++ username
    ++ "','".toList ++ encryptPassword env password ++ "');".toList

def signinReadSql (username : Str) : Str :=
  "SELECT user_pwd FROM cloudisk.tbl_user WHERE user_name = '".toList ++ username
    ++ "' LIMIT 1;".toList

def signinWriteSql (env : Env) (username : Str) (now : Clock) : Str :=
  "REPLACE INTO cloudisk.tbl_user_token (user_name,user_token) VALUES ('".toList
    ++ username
    ++ "', '".toList ++ token env username now ++ "');".toList

def infoSql (username : Str) : Str :=
  "SELECT user_name, signup_at FROM cloudisk.tbl_user WHERE user_name='".toList
    ++ username ++ "' LIMIT 1;".toList

def querySql (username limit : Str) : Str :=
  "SELECT file_sha1,file_name,file_size,upload_at,last_update ".toList
    ++ "FROM cloudisk.tbl_user_file WHERE user_name = '".toList
    ++ username ++ "' LIMIT ".toList ++ limit ++ ";".toList

def downloadurlSql (filehash : Str) : Str :=
  "SELECT file_name FROM cloudisk.tbl_file WHERE file_sha1='".toList ++ filehash ++ "';".toList

def Statement.sql (env : Env) : Statement → Str
  | .upload r first second => uploadSql r first second
  | .signup username password => signupSql env username password
  | .signinRead username => signinReadSql username
  | .signinWrite username now => signinWriteSql env username now
  | .info username => infoSql username
  | .query username limit => querySql username limit
  | .downloadurl filehash => downloadurlSql filehash

def Statement.template (env : Env) : Statement → Template
  | .upload r first second =>
    let size := stdToString r.body.length
    .quoted
      "INSERT INTO cloudisk.tbl_file (file_sha1,file_name,file_size,file_addr,status) VALUES(".toList
      (sha1Of first) <|
    .quoted ",".toList r.filename <|
    .quoted (",".toList ++ size ++ ",".toList) (filepath r.filename) <|
    .quoted
      (", 0);INSERT INTO cloudisk.tbl_user_file ".toList ++
        "(user_name, file_sha1, file_name, file_size) VALUES (".toList) r.username <|
    .quoted ",".toList (sha1Of second) <|
    .quoted ",".toList r.filename <|
    .done (",".toList ++ size ++ ");".toList)
  | .signup username password =>
    .quoted "INSERT INTO cloudisk.tbl_user (user_name,user_pwd) VALUES( ".toList username <|
    .quoted ",".toList (encryptPassword env password) <|
    .done ");".toList
  | .signinRead username =>
    .quoted "SELECT user_pwd FROM cloudisk.tbl_user WHERE user_name = ".toList username <|
    .done " LIMIT 1;".toList
  | .signinWrite username now =>
    .quoted "REPLACE INTO cloudisk.tbl_user_token (user_name,user_token) VALUES (".toList
      username <|
    .quoted ", ".toList (token env username now) <|
    .done ");".toList
  | .info username =>
    .quoted "SELECT user_name, signup_at FROM cloudisk.tbl_user WHERE user_name=".toList username <|
    .done " LIMIT 1;".toList
  | .query username limit =>
    .quoted ("SELECT file_sha1,file_name,file_size,upload_at,last_update ".toList ++
      "FROM cloudisk.tbl_user_file WHERE user_name = ".toList) username <|
    .operand " LIMIT ".toList limit
  | .downloadurl filehash =>
    .quoted "SELECT file_name FROM cloudisk.tbl_file WHERE file_sha1=".toList filehash <|
    .done ";".toList

theorem render_template (env : Env) (s : Statement) : (s.template env).render = s.sql env := by
  cases s
  all_goals
    simp only [Statement.template, Template.render, Statement.sql]
    delta uploadSql insertFile insertUserFile signupSql signinReadSql signinWriteSql infoSql
      querySql downloadurlSql
    simp only [List.append_assoc]
    repeat rw [String.toList_ofList]
    rfl

theorem size_no_quote (n : ℕ) : SqlText.quote ∉ stdToString n := by
  intro h
  have := Nat.isDigit_of_mem_toDigits (by decide) (by decide) h
  revert this
  decide

theorem template_shaped (env : Env) (s : Statement) : (s.template env).Shaped := by
  have hsize := size_no_quote
  cases s
  all_goals
    simp only [Statement.template, Template.Shaped, Template.opening, List.mem_append, hsize]
    repeat rw [String.toList_ofList]
    simp [SqlText.quote, backslash]

theorem lowerHex_plain (c : Char) (h : lowerHex c) : c ≠ SqlText.quote ∧ c ≠ backslash := by
  constructor
  · rintro rfl
    revert h
    decide
  · rintro rfl
    revert h
    decide

theorem sha1Of_inert (content : Bytes) : inert (sha1Of content) :=
  inert_of_plain _ fun c hc => lowerHex_plain c (lowerHex_of_mem _ c hc)

theorem token_lowerHex (env : Env) (username : Str) (now : Clock) (c : Char)
    (h : c ∈ token env username now) : lowerHex c := by
  simp only [token, timeStamp, List.mem_append] at h
  rcases h with h | h
  · rw [show (env.md5 (username ++ salt)).flatMap FileUtil.fmt02x = hex (env.md5 (username ++ salt))
      by rw [hex, funext FileUtil.fmt02x_eq]] at h
    exact lowerHex_of_mem _ c h
  · have hd : c.isDigit := by
      rcases h with ((h | h) | h) | h <;> exact pad02_digits _ c h
    simp [lowerHex, hd]

theorem token_inert (env : Env) (username : Str) (now : Clock) : inert (token env username now) :=
  inert_of_plain _ fun c hc => lowerHex_plain c (token_lowerHex env username now c hc)

theorem filepath_inert (filename : Str) : inert (filepath filename) = inert filename := by
  change inert (['t','m','p','/'] ++ filename) = _
  iterate 4 rw [List.cons_append, inert_cons _ _ (by decide) (by decide)]
  rfl

/-- The characters that `crypt` makes its result of. -/
def CryptAlphabet (env : Env) : Prop :=
  ∀ key, ∀ c ∈ env.crypt key salt, c.isAlphanum ∨ c = '.' ∨ c = '/'

theorem encryptPassword_inert (env : Env) (hc : CryptAlphabet env) (password : Str) :
    inert (encryptPassword env password) := by
  apply inert_of_plain
  intro c h
  have := hc _ c h
  constructor <;> rintro rfl <;> revert this <;> decide

/-- Every string of the request stands for itself between quotes, and the limit
is a number. -/
def Statement.Harmless : Statement → Prop
  | .upload r _ _ => inert r.filename ∧ inert r.username
  | .signup username _ => inert username
  | .signinRead username => inert username
  | .signinWrite username _ => inert username
  | .info username => inert username
  | .query username limit => inert username ∧ numeral limit
  | .downloadurl filehash => inert filehash

instance : (s : Statement) → Decidable s.Harmless
  | .upload _ _ _ => inferInstanceAs (Decidable (_ ∧ _))
  | .signup _ _ => inferInstanceAs (Decidable (_ = _))
  | .signinRead _ => inferInstanceAs (Decidable (_ = _))
  | .signinWrite _ _ => inferInstanceAs (Decidable (_ = _))
  | .info _ => inferInstanceAs (Decidable (_ = _))
  | .query _ _ => inferInstanceAs (Decidable (_ ∧ _))
  | .downloadurl _ => inferInstanceAs (Decidable (_ = _))

def Statement.Carried (env : Env) (s : Statement) : Prop :=
  (s.template env).Carries (lex (.text []) (s.sql env))

theorem plain_iff (env : Env) (hc : CryptAlphabet env) (s : Statement) :
    (s.template env).Plain ↔ s.Harmless := by
  cases s with
  | upload r first second =>
    simp only [Statement.template, Template.Plain, Statement.Harmless, sha1Of_inert,
      filepath_inert, true_and, and_true]
    tauto
  | signup username password =>
    simp only [Statement.template, Template.Plain, Statement.Harmless, encryptPassword_inert env hc,
      and_true]
  | signinWrite username now =>
    simp only [Statement.template, Template.Plain, Statement.Harmless, token_inert, and_true]
  | query username limit => rfl
  | signinRead username => exact and_iff_left trivial
  | info username => exact and_iff_left trivial
  | downloadurl filehash => exact and_iff_left trivial

/-- A statement has the tokens of its template, with the request's strings as its
literals and one number as its limit, exactly when none of them holds a quote or
an escape. -/
theorem sql_carried_iff (env : Env) (hc : CryptAlphabet env) (s : Statement) :
    s.Carried env ↔ s.Harmless := by
  rw [Statement.Carried, ← render_template, carries_iff _ (template_shaped env s), plain_iff env hc]

def encrypted : Env where
  crypt := fun _ _ => "12IbR.gJ8wcpc".toList
  md5 := fun _ => []
  name := some

theorem encrypted_alphabet : CryptAlphabet encrypted := by
  intro key c hc
  have hall : "12IbR.gJ8wcpc".toList.all (fun c => c.isAlphanum ∨ c = '.' ∨ c = '/') = true := by
    rw [String.toList_ofList]
    decide
  exact of_decide_eq_true (List.all_eq_true.mp hall c hc)

theorem signup_carried :
    (Statement.signup "alice".toList "123".toList).Harmless ∧
      (Statement.signup "alice".toList "123".toList).Carried encrypted := by
  have hs : (Statement.signup "alice".toList "123".toList).Harmless := by
    rw [Statement.Harmless, String.toList_ofList]
    decide
  exact ⟨hs,(sql_carried_iff encrypted encrypted_alphabet _).mpr hs⟩

/-- A name with quotes adds a condition to the query that looks up its password. -/
theorem quoted_name_adds_tokens :
    ¬ (Statement.signinRead "x' OR 'a'='a".toList).Carried encrypted := by
  rw [Statement.Carried, ← render_template, carries_iff _ (template_shaped _ _),
    plain_iff encrypted encrypted_alphabet, Statement.Harmless, String.toList_ofList]
  decide

end WdHttp.CloudSql
