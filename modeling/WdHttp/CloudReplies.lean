import WdHttp.JsonDump
import WdHttp.CloudSql

/-!
# Replies of the cloud disk

The handlers of `/user/signin`, `/user/info`, `/file/downloadurl` and
`/file/download` in `day12/project/main.cc`, with the callbacks of their database
tasks. A parameter that is missing is the empty text. A task that failed, or found
nothing, has no rows. Nothing catches what a handler throws, and a row that is not
there is read all the same, so that neither leaves a server to answer.
-/

set_option autoImplicit false

namespace WdHttp.CloudReplies
open WdHttp.CText WdHttp.UserSignin WdHttp.CloudSql WdHttp.JsonDump

abbrev Params := Str → Option Str

/-- `operator[]` of a `std::map`. -/
def Params.at (p : Params) (name : Str) : Str := (p name).getD []

def usernameText : Str := "username".toList
def passwordText : Str := "password".toList
def filehashText : Str := "filehash".toList
def filenameText : Str := "filename".toList
def filesizeText : Str := "filesize".toList

inductive Request where
  | signin (form : Params)
  | info (query : Params)
  | downloadurl (query : Params)
  | download (query : Params)

structure MySQLCell where
  asString : Str
  asDatetime : Str

/-- A request with the rows of its lookup and the time at which they arrive. -/
structure Exchange where
  request : Request
  rows : List (List MySQLCell)
  now : Clock

inductive Fault where
  | index
  | json
  | stoi
  deriving DecidableEq, Repr

inductive Reply where
  | body (s : Str)
  | redirect (location : Str)
  deriving DecidableEq, Repr

/-- The reply, and the statements sent to the database before it. -/
structure Served where
  reply : Reply
  statements : List Statement

def cell (rows : List (List MySQLCell)) (i j : ℕ) : Except Fault MySQLCell :=
  match rows[i]? with
  | none => .error .index
  | some row =>
    match row[j]? with
    | none => .error .index
    | some c => .ok c

def dumped (d : Doc) : Except Fault Str :=
  match dump d with
  | none => .error .json
  | some s => .ok s

def failText : Str := "FAIL".toList
def serverText : Str := "http://192.168.135.129:1235/".toList

def respDoc (data : List (Str × Doc)) : Doc :=
  .object [("code".toList,.integer 0),("data".toList,.object data),("msg".toList,.string okText)]

def signinDoc (username token : Str) : Doc :=
  respDoc [("Location".toList,.string homeText),("Token".toList,.string token),
    ("Username".toList,.string username)]

def infoDoc (username signupAt : Str) : Doc :=
  respDoc [("SignupAt".toList,.string signupAt),("Username".toList,.string username)]

def signin (env : Env) (form : Params) (rows : List (List MySQLCell)) (now : Clock) :
    Except Fault Served := do
  let username := form.at usernameText
  let password := form.at passwordText
  let nowPassword := (← cell rows 0 0).asString
  if cStr nowPassword ≠ encryptPassword env password then
    .ok ⟨.body failText,[.signinRead username]⟩
  else
    let text ← dumped (signinDoc username (token env username now))
    .ok ⟨.body text,[.signinRead username,.signinWrite username now]⟩

def info (query : Params) (rows : List (List MySQLCell)) : Except Fault Served := do
  let username := (← cell rows 0 0).asString
  let signupAt := (← cell rows 0 1).asDatetime
  let text ← dumped (infoDoc username signupAt)
  .ok ⟨.body text,[.info (query.at usernameText)]⟩

def downloadurl (query : Params) (rows : List (List MySQLCell)) : Except Fault Served := do
  let filename := (← cell rows 0 0).asString
  .ok ⟨.body (serverText ++ filename),[.downloadurl (query.at filehashText)]⟩

def download (query : Params) : Except Fault Served :=
  match stoi (query.at filesizeText) with
  | none => .error .stoi
  | some _ => .ok ⟨.redirect (serverText ++ query.at filenameText),[]⟩

def handle (env : Env) (x : Exchange) : Except Fault Served :=
  match x.request with
  | .signin form => signin env form x.rows x.now
  | .info query => info query x.rows
  | .downloadurl query => downloadurl query x.rows
  | .download query => download query

def changes : Statement → Bool
  | .upload _ _ _ => true
  | .signup _ _ => true
  | .signinWrite _ _ => true
  | _ => false

/-- The exchange ends in a reply, and without a change when nothing was found. -/
def Answered (env : Env) (x : Exchange) : Prop :=
  ∃ r, handle env x = .ok r ∧ (x.rows = [] → ∀ s ∈ r.statements, changes s = false)

/-- A lookup found its row, what is written as JSON is UTF-8, and the size is an
`int`. -/
def Answerable (env : Env) (x : Exchange) : Prop :=
  match x.request with
  | .signin form => ∃ c row rows, x.rows = (c::row)::rows ∧
    (cStr c.asString = encryptPassword env (form.at passwordText) → utf8 (form.at usernameText))
  | .info _ => ∃ c d row rows, x.rows = (c::d::row)::rows ∧ utf8 c.asString ∧ utf8 d.asDatetime
  | .downloadurl _ => ∃ c row rows, x.rows = (c::row)::rows
  | .download query => (stoi (query.at filesizeText)).isSome

theorem bind_ok_iff {α β : Type} (x : Except Fault α) (f : α → Except Fault β) (b : β) :
    x >>= f = .ok b ↔ ∃ a, x = .ok a ∧ f a = .ok b := by
  cases x with
  | error e => simp [bind, Except.bind]
  | ok a => simp [bind, Except.bind]

theorem first_cell_iff (rows : List (List MySQLCell)) (c : MySQLCell) :
    cell rows 0 0 = .ok c ↔ ∃ row rest, rows = (c::row)::rest := by
  match rows with
  | [] => simp [cell]
  | []::rows => simp [cell]
  | (d::row)::rows => simp [cell]

theorem second_cell_iff (c d : MySQLCell) (row : List MySQLCell) (rows : List (List MySQLCell)) :
    cell ((c::row)::rows) 0 1 = .ok d ↔ ∃ row', row = d::row' := by
  cases row with
  | nil => simp [cell]
  | cons e row => simp [cell]

theorem dumped_ok_iff (d : Doc) : (∃ s, dumped d = .ok s) ↔ (texts d).all utf8 := by
  rw [← dump_isSome, dumped]
  cases dump d <;> simp

theorem lowerHex_ascii (c : Char) (h : Fips180.lowerHex c) : c.toNat < 128 := by
  simp only [Fips180.lowerHex, Bool.or_eq_true, Bool.and_eq_true, decide_eq_true_eq] at h
  rcases h with h | h
  · exact isDigit_ascii c h
  · exact lt_of_le_of_lt (UInt32.le_iff_toNat_le.mp h.2) (by decide)

theorem token_utf8 (env : Env) (username : Str) (now : Clock) : utf8 (token env username now) :=
  utf8_ascii _ fun c hc => lowerHex_ascii c (token_lowerHex env username now c hc)

theorem respDoc_utf8 (data : List (Str × Doc)) :
    (texts (respDoc data)).all utf8 = (memberTexts data).all utf8 := by
  have hcode : utf8 "code".toList := by decide +kernel
  have hdata : utf8 "data".toList := by decide +kernel
  have hmsg : utf8 "msg".toList := by decide +kernel
  have hok : utf8 okText := by decide +kernel
  simp only [respDoc, texts, memberTexts, List.all_cons, List.all_append, List.all_nil,
    List.nil_append, hcode, hdata, hmsg, hok, Bool.true_and, Bool.and_true]

theorem signinDoc_utf8 (env : Env) (username : Str) (now : Clock) :
    (texts (signinDoc username (token env username now))).all utf8 = utf8 username := by
  have hlocation : utf8 "Location".toList := by decide +kernel
  have htoken : utf8 "Token".toList := by decide +kernel
  have husername : utf8 "Username".toList := by decide +kernel
  have hhome : utf8 homeText := by decide +kernel
  rw [signinDoc, respDoc_utf8]
  simp only [texts, memberTexts, List.all_cons, List.all_append, List.all_nil, hlocation, htoken,
    husername, hhome, token_utf8, Bool.true_and, Bool.and_true]

theorem infoDoc_utf8 (username signupAt : Str) :
    (texts (infoDoc username signupAt)).all utf8 = (utf8 signupAt && utf8 username) := by
  have hsignup : utf8 "SignupAt".toList := by decide +kernel
  have husername : utf8 "Username".toList := by decide +kernel
  rw [infoDoc, respDoc_utf8]
  simp only [texts, memberTexts, List.all_cons, List.all_append, List.all_nil, hsignup,
    husername, Bool.true_and, Bool.and_true]

theorem signin_ok_iff (env : Env) (form : Params) (rows : List (List MySQLCell)) (now : Clock) :
    (∃ r, signin env form rows now = .ok r) ↔ Answerable env ⟨.signin form,rows,now⟩ := by
  simp only [Answerable, signin, bind_ok_iff]
  constructor
  · rintro ⟨r,c,hc,hr⟩
    obtain ⟨row,rest,rfl⟩ := (first_cell_iff rows c).mp hc
    refine ⟨c,row,rest,rfl,?_⟩
    intro hp
    rw [if_neg (not_not.mpr hp), bind_ok_iff] at hr
    obtain ⟨text,ht,-⟩ := hr
    rw [← signinDoc_utf8 env _ now]
    exact (dumped_ok_iff _).mp ⟨text,ht⟩
  · rintro ⟨c,row,rest,rfl,hu⟩
    by_cases hp : cStr c.asString = encryptPassword env (form.at passwordText)
    · have hd := hu hp
      rw [← signinDoc_utf8 env _ now] at hd
      obtain ⟨text,ht⟩ := (dumped_ok_iff _).mpr hd
      let username := form.at usernameText
      refine ⟨⟨.body text,[.signinRead username,.signinWrite username now]⟩,c,rfl,?_⟩
      rw [if_neg (not_not.mpr hp), ht]
      rfl
    · exact ⟨_,c,rfl,if_pos hp⟩

def nowPassword (rows : List (List MySQLCell)) : Option Str :=
  (rows.head?.bind List.head?).map fun c => cStr c.asString

/-- The callback takes the phases of a sign-in of the run, as long as its name can
be written. -/
theorem signin_selectPhase (env : Env) (form : Params) (rows : List (List MySQLCell))
    (now : Clock) (hu : utf8 (form.at usernameText)) :
    match selectPhase env (form.at usernameText) (form.at passwordText) now (nowPassword rows) with
    | .crashed => signin env form rows now = .error .index
    | .fail => signin env form rows now = .ok ⟨.body failText,[.signinRead (form.at usernameText)]⟩
    | .replace t => ∃ text, dump (signinDoc (form.at usernameText) t) = some text ∧
        signin env form rows now = .ok ⟨.body text,
          [.signinRead (form.at usernameText),.signinWrite (form.at usernameText) now]⟩
    | _ => False := by
  match rows with
  | [] => rfl
  | []::rows => rfl
  | (c::row)::rows =>
    have hrow : nowPassword ((c::row)::rows) = some (cStr c.asString) := rfl
    rw [hrow, selectPhase]
    by_cases hp : cStr c.asString = encryptPassword env (form.at passwordText)
    · have hd := hu
      rw [← signinDoc_utf8 env _ now, ← dump_isSome, Option.isSome_iff_exists] at hd
      obtain ⟨text,ht⟩ := hd
      rw [if_pos hp]
      refine ⟨text,ht,?_⟩
      simp [signin, cell, bind, Except.bind, hp, dumped, ht]
    · rw [if_neg hp]
      simp [signin, cell, bind, Except.bind, hp]

theorem info_ok_iff (env : Env) (query : Params) (rows : List (List MySQLCell)) (now : Clock) :
    (∃ r, info query rows = .ok r) ↔ Answerable env ⟨.info query,rows,now⟩ := by
  simp only [Answerable, info, bind_ok_iff]
  constructor
  · rintro ⟨r,c,hc,d,hd,text,ht,-⟩
    obtain ⟨row,rest,rfl⟩ := (first_cell_iff rows c).mp hc
    obtain ⟨row,rfl⟩ := (second_cell_iff c d row rest).mp hd
    have hu := (dumped_ok_iff _).mp ⟨text,ht⟩
    rw [infoDoc_utf8, Bool.and_eq_true] at hu
    exact ⟨c,d,row,rest,rfl,hu.2,hu.1⟩
  · rintro ⟨c,d,row,rest,rfl,hc,hd⟩
    obtain ⟨text,ht⟩ : ∃ text, dumped (infoDoc c.asString d.asDatetime) = .ok text := by
      rw [dumped_ok_iff, infoDoc_utf8, hc, hd]
      rfl
    exact ⟨_,c,rfl,d,rfl,text,ht,rfl⟩

theorem downloadurl_ok_iff (env : Env) (query : Params) (rows : List (List MySQLCell))
    (now : Clock) :
    (∃ r, downloadurl query rows = .ok r) ↔ Answerable env ⟨.downloadurl query,rows,now⟩ := by
  simp only [Answerable, downloadurl, bind_ok_iff]
  constructor
  · rintro ⟨r,c,hc,-⟩
    obtain ⟨row,rest,hr⟩ := (first_cell_iff rows c).mp hc
    exact ⟨c,row,rest,hr⟩
  · rintro ⟨c,row,rest,rfl⟩
    exact ⟨_,c,rfl,rfl⟩

theorem download_ok_iff (env : Env) (query : Params) (rows : List (List MySQLCell))
    (now : Clock) :
    (∃ r, download query = .ok r) ↔ Answerable env ⟨.download query,rows,now⟩ := by
  simp only [Answerable, download]
  cases stoi (query.at filesizeText) with
  | none => simp
  | some n => simp

theorem handle_ok_iff (env : Env) (x : Exchange) :
    (∃ r, handle env x = .ok r) ↔ Answerable env x := by
  obtain ⟨request,rows,now⟩ := x
  cases request with
  | signin form => exact signin_ok_iff env form rows now
  | info query => exact info_ok_iff env query rows now
  | downloadurl query => exact downloadurl_ok_iff env query rows now
  | download query => exact download_ok_iff env query rows now

theorem no_rows_no_changes (env : Env) (x : Exchange) (r : Served) (hr : handle env x = .ok r)
    (hx : x.rows = []) : ∀ s ∈ r.statements, changes s = false := by
  obtain ⟨request,rows,now⟩ := x
  obtain rfl : rows = [] := hx
  cases request with
  | signin form => cases hr
  | info query => cases hr
  | downloadurl query => cases hr
  | download query =>
    simp only [handle, download] at hr
    split at hr
    · cases hr
    · cases hr
      simp

/-- A request is answered, without a change when its lookup finds nothing, exactly
when the row it takes from the database is there, the texts it puts into a reply
are UTF-8, and the size it is given is an `int`. -/
theorem request_answered_iff (env : Env) (x : Exchange) : Answered env x ↔ Answerable env x := by
  rw [← handle_ok_iff env x]
  constructor
  · rintro ⟨r,hr,-⟩
    exact ⟨r,hr⟩
  · rintro ⟨r,hr⟩
    exact ⟨r,hr,no_rows_no_changes env x r hr⟩

theorem large_or_unknown_unanswered :
    ¬ Answered encrypted ⟨.download fun name =>
        if name = filesizeText then some "3221225472".toList else some "a".toList,[],
        ⟨⟨1,by decide⟩,⟨0,by decide⟩,⟨0,by decide⟩,⟨0,by decide⟩⟩⟩ ∧
      ¬ Answered encrypted ⟨.signin fun _ => some "a".toList,[],
        ⟨⟨1,by decide⟩,⟨0,by decide⟩,⟨0,by decide⟩,⟨0,by decide⟩⟩⟩ := by
  constructor
  · rintro ⟨r,hr,-⟩
    have hs := (handle_ok_iff encrypted _).mp ⟨r,hr⟩
    revert hs
    simp only [Answerable, Params.at, if_true, Option.getD_some]
    decide +kernel
  · rintro ⟨r,hr,-⟩
    cases hr

def serve (env : Env) : List Exchange → List Served
  | [] => []
  | x::xs =>
    match handle env x with
    | .error _ => []
    | .ok r => r::serve env xs

theorem serve_all_iff (env : Env) (xs : List Exchange) :
    (serve env xs).length = xs.length ↔ ∀ x ∈ xs, Answerable env x := by
  induction xs with
  | nil => simp [serve]
  | cons x xs ih =>
    rw [List.forall_mem_cons, ← ih, ← handle_ok_iff, serve]
    split
    · rename_i h
      simp [h]
    · rename_i r h
      simp [h]

end WdHttp.CloudReplies
