import WdHttp.PartialRun
import WdHttp.FileUtil

/-!
# Sign-up and sign-in

The handlers of `POST /user/signup` and `POST /user/signin` in
`day12/project/main.cc`. A sign-up inserts a user with an encrypted password. A
sign-in selects the stored password, compares it with the encryption of the one
supplied, and on a match replaces the user's token and answers with it. The
statements of different requests interleave in any order. A statement may fail,
and a failed one may have taken effect all the same. The database, `crypt` and
`MD5` are not part of the source.
-/

set_option autoImplicit false

namespace WdHttp.UserSignin
open WdHttp.CText WdHttp.PosixFile WdHttp.PartialRun WdHttp.FileUtil

/-- What the handlers call. `name` is the user name that the database makes of a
text between quotes, up to the comparison of its column; a text that ends the
statement in an error has none. -/
structure Env where
  crypt : Str → Str → Str
  md5 : Str → Bytes
  name : Str → Option Str

def salt : Str := "12345678".toList

def encryptPassword (env : Env) (password : Str) : Str := env.crypt (cStr password) salt

structure Clock where
  mday : Fin 32
  hour : Fin 24
  min : Fin 60
  sec : Fin 61

def timeStamp (t : Clock) : Str := pad02 t.mday ++ pad02 t.hour ++ pad02 t.min ++ pad02 t.sec

/-- The text built by the constructor of `Token`. -/
def token (env : Env) (username : Str) (now : Clock) : Str :=
  (env.md5 (username ++ salt)).flatMap fmt02x ++ timeStamp now

structure RespInfo where
  code : ℤ
  msg : Str
  username : Str
  token : Str
  location : Str
  deriving DecidableEq

def homeText : Str := "/static/view/home.html".toList
def okText : Str := "OK".toList

def respInfo (username token : Str) : RespInfo where
  code := 0
  msg := okText
  username := username
  token := token
  location := homeText

/-- A statement is answered, or its task fails with or without an effect. -/
inductive Outcome where
  | ok
  | lost (applied : Bool)
  deriving DecidableEq, Repr

def Outcome.applied : Outcome → Bool
  | .ok => true
  | .lost applied => applied

inductive SignupPhase where
  | insert
  | success
  | fail
  deriving DecidableEq, Repr

/-- A sign-in whose query returned no row reads past the end of the result and is
never answered. -/
inductive SigninPhase where
  | select
  | replace (token : Str)
  | fail
  | crashed
  | replied (resp : RespInfo) (out : Outcome)
  deriving DecidableEq

inductive Flight where
  | signup (username password : Str) (phase : SignupPhase)
  | signin (username password : Str) (phase : SigninPhase)
  deriving DecidableEq

structure State where
  tblUser : Str → Option Str
  tblUserToken : Str → Option Str
  flights : ℕ → Option Flight

inductive Event where
  | signup (id : ℕ) (username password : Str)
  | insert (id : ℕ) (out : Outcome)
  | signin (id : ℕ) (username password : Str)
  | select (id : ℕ) (ok : Bool) (now : Clock)
  | replace (id : ℕ) (out : Outcome)

def quote : Char := Char.ofNat 39

def State.put (s : State) (id : ℕ) (f : Flight) : State :=
  { s with flights := Function.update s.flights id (some f) }

def arrive (s : State) (id : ℕ) (username : Str) (f : Flight) : Option State :=
  if quote ∈ username ∨ (s.flights id).isSome then none else some (s.put id f)

/-- The row that an `INSERT` adds. None is added for a malformed statement or a
name that is there already. -/
def insertRow (env : Env) (s : State) (username : Str) : Option Str :=
  (env.name username).filter fun k => (s.tblUser k).isNone

def insertPhase (row : Option Str) : Outcome → SignupPhase
  | .ok => if row.isSome then .success else .fail
  | .lost _ => .fail

def insertUser (s : State) (row : Option Str) (pwd : Str) (out : Outcome) : Str → Option Str :=
  match row with
  | some k => if out.applied then Function.update s.tblUser k (some pwd) else s.tblUser
  | none => s.tblUser

/-- The callback of the reading task, on the first row of the result. -/
def selectPhase (env : Env) (username password : Str) (now : Clock) : Option Str → SigninPhase
  | none => .crashed
  | some nowPassword =>
    if nowPassword = encryptPassword env password then .replace (token env username now) else .fail

def storeToken (env : Env) (s : State) (username t : Str) (out : Outcome) : Str → Option Str :=
  match env.name username with
  | some k => if out.applied then Function.update s.tblUserToken k (some t) else s.tblUserToken
  | none => s.tblUserToken

def step (env : Env) (s : State) : Event → Option State
  | .signup id u p => arrive s id u (.signup u p .insert)
  | .signin id u p => arrive s id u (.signin u p .select)
  | .insert id out =>
    match s.flights id with
    | some (.signup u p .insert) =>
      some (State.put
        { s with tblUser := insertUser s (insertRow env s u) (encryptPassword env p) out } id
        (.signup u p (insertPhase (insertRow env s u) out)))
    | _ => none
  | .select id ok now =>
    match s.flights id with
    | some (.signin u p .select) =>
      some (s.put id (.signin u p (selectPhase env u p now
        (if ok then (env.name u).bind s.tblUser else none))))
    | _ => none
  | .replace id out =>
    match s.flights id with
    | some (.signin u p (.replace t)) =>
      some (State.put { s with tblUserToken := storeToken env s u t out } id
        (.signin u p (.replied (respInfo u t) out)))
    | _ => none

def start : State where
  tblUser := fun _ => none
  tblUserToken := fun _ => none
  flights := fun _ => none

abbrev runs (env : Env) := PartialRun.run (step env)

/-- A success reply has a registration with the same name and password behind it
and a stored token, and every stored token was answered. -/
structure Sound (env : Env) (s : State) : Prop where
  replies : ∀ id u p resp out, s.flights id = some (.signin u p (.replied resp out)) →
    resp.code = 0 → out = .ok ∧ ∃ i, s.flights i = some (.signup u p .success)
  tokens : ∀ k t, s.tblUserToken k = some t →
    ∃ id u p, s.flights id = some (.signin u p (.replied (respInfo u t) .ok)) ∧ env.name u = some k

/-- The step stores the token of a sign-in and answers it with a success. -/
def Answers (s t : State) : Prop :=
  ∃ id u p tok, s.flights id = some (.signin u p (.replace tok)) ∧
    t.flights id = some (.signin u p (.replied (respInfo u tok) .ok))

/-- A registration that the database and `crypt` take for this one is this one. -/
def Telling (env : Env) (users : List (Str × Str)) (u p : Str) : Prop :=
  ∀ v ∈ users, (env.name u).isSome → env.name v.1 = env.name u →
    encryptPassword env v.2 = encryptPassword env p → v = (u,p)

/-- Sign-ins are told apart from the registrations of others, and no statement
fails in a way that the handlers overlook. -/
def Careful (env : Env) (users : List (Str × Str)) : Event → Prop
  | .signin _ u p => Telling env users u p
  | .insert _ out => out ≠ .lost true
  | .replace _ out => out = .ok
  | _ => True

instance (env : Env) (users : List (Str × Str)) (u p : Str) : Decidable (Telling env users u p) :=
  inferInstanceAs (Decidable (∀ v ∈ users, _ → _ → _ → _))

instance (env : Env) (users : List (Str × Str)) : (e : Event) → Decidable (Careful env users e)
  | .signin _ u p => inferInstanceAs (Decidable (Telling env users u p))
  | .insert _ _ => inferInstanceAs (Decidable (_ ≠ _))
  | .replace _ _ => inferInstanceAs (Decidable (_ = _))
  | .signup _ _ _ => inferInstanceAs (Decidable True)
  | .select _ _ _ => inferInstanceAs (Decidable True)

def registrations (es : List Event) : List (Str × Str) :=
  es.filterMap fun
    | .signup _ u p => some (u,p)
    | _ => none

section Inversion

variable {env : Env} {s t : State} {id : ℕ}

theorem arrive_inv {u : Str} {f : Flight} (hs : arrive s id u f = some t) :
    s.flights id = none ∧ t = s.put id f := by
  unfold arrive at hs
  split at hs
  · cases hs
  · rename_i hn
    exact ⟨by simpa using (not_or.mp hn).2,(Option.some.inj hs).symm⟩

theorem insert_inv {out : Outcome} (hs : step env s (.insert id out) = some t) :
    ∃ u p, s.flights id = some (.signup u p .insert) ∧ t = State.put
      { s with tblUser := insertUser s (insertRow env s u) (encryptPassword env p) out } id
      (.signup u p (insertPhase (insertRow env s u) out)) := by
  simp only [step] at hs
  split at hs
  · rename_i u p hf
    exact ⟨u,p,hf,(Option.some.inj hs).symm⟩
  · cases hs

theorem select_inv {ok : Bool} {now : Clock} (hs : step env s (.select id ok now) = some t) :
    ∃ u p, s.flights id = some (.signin u p .select) ∧
      t = s.put id (.signin u p (selectPhase env u p now
        (if ok then (env.name u).bind s.tblUser else none))) := by
  simp only [step] at hs
  split at hs
  · rename_i u p hf
    exact ⟨u,p,hf,(Option.some.inj hs).symm⟩
  · cases hs

theorem replace_inv {out : Outcome} (hs : step env s (.replace id out) = some t) :
    ∃ u p tok, s.flights id = some (.signin u p (.replace tok)) ∧ t = State.put
      { s with tblUserToken := storeToken env s u tok out } id
      (.signin u p (.replied (respInfo u tok) out)) := by
  simp only [step] at hs
  split at hs
  · rename_i u p tok hf
    exact ⟨u,p,tok,hf,(Option.some.inj hs).symm⟩
  · cases hs

theorem put_self (s : State) (id : ℕ) (f : Flight) : (s.put id f).flights id = some f :=
  Function.update_self _ _ _

theorem put_other (s : State) (id j : ℕ) (f : Flight) (h : j ≠ id) :
    (s.put id f).flights j = s.flights j := Function.update_of_ne h _ _

end Inversion

/-- What the tables and the flights of a careful run have in common. -/
structure Inv (env : Env) (users : List (Str × Str)) (s : State) : Prop extends Sound env s where
  registered : ∀ k pwd, s.tblUser k = some pwd → ∃ i u p,
    s.flights i = some (.signup u p .success) ∧ env.name u = some k ∧ pwd = encryptPassword env p
  signups : ∀ id u p phase, s.flights id = some (.signup u p phase) → (u,p) ∈ users
  signins : ∀ id u p phase, s.flights id = some (.signin u p phase) → Telling env users u p
  passed : ∀ id u p tok, s.flights id = some (.signin u p (.replace tok)) →
    ∃ i, s.flights i = some (.signup u p .success)

/-- How a step changes the flight it is about. -/
inductive Moves (env : Env) (s : State) : Event → ℕ → Option Flight → Flight → Prop where
  | signup (id : ℕ) (u p : Str) : Moves env s (.signup id u p) id none (.signup u p .insert)
  | signin (id : ℕ) (u p : Str) : Moves env s (.signin id u p) id none (.signin u p .select)
  | insert (id : ℕ) (out : Outcome) (u p : Str) :
      Moves env s (.insert id out) id (some (.signup u p .insert))
        (.signup u p (insertPhase (insertRow env s u) out))
  | select (id : ℕ) (ok : Bool) (now : Clock) (u p : Str) :
      Moves env s (.select id ok now) id (some (.signin u p .select))
        (.signin u p (selectPhase env u p now (if ok then (env.name u).bind s.tblUser else none)))
  | replace (id : ℕ) (out : Outcome) (u p tok : Str) :
      Moves env s (.replace id out) id (some (.signin u p (.replace tok)))
        (.signin u p (.replied (respInfo u tok) out))

section Steps

variable {env : Env} {users : List (Str × Str)} {s t : State} {e : Event}

/-- One step moves one flight and leaves the others. -/
theorem step_moves (hs : step env s e = some t) :
    ∃ id f, Moves env s e id (s.flights id) f ∧ t.flights id = some f ∧
      ∀ j, j ≠ id → t.flights j = s.flights j := by
  cases e with
  | signup id u p =>
    obtain ⟨hn,rfl⟩ := arrive_inv hs
    refine ⟨id,_,?_,put_self _ _ _,fun j => put_other _ id j _⟩
    rw [hn]
    exact .signup id u p
  | signin id u p =>
    obtain ⟨hn,rfl⟩ := arrive_inv hs
    refine ⟨id,_,?_,put_self _ _ _,fun j => put_other _ id j _⟩
    rw [hn]
    exact .signin id u p
  | insert id out =>
    obtain ⟨u,p,hf,rfl⟩ := insert_inv hs
    refine ⟨id,_,?_,put_self _ _ _,fun j => put_other _ id j _⟩
    rw [hf]
    exact .insert id out u p
  | select id ok now =>
    obtain ⟨u,p,hf,rfl⟩ := select_inv hs
    refine ⟨id,_,?_,put_self _ _ _,fun j => put_other _ id j _⟩
    rw [hf]
    exact .select id ok now u p
  | replace id out =>
    obtain ⟨u,p,tok,hf,rfl⟩ := replace_inv hs
    refine ⟨id,_,?_,put_self _ _ _,fun j => put_other _ id j _⟩
    rw [hf]
    exact .replace id out u p tok

theorem settled_keep (hs : step env s e = some t) (j : ℕ) (g : Flight)
    (hg : ∀ id f, ¬ Moves env s e id (some g) f) (hf : s.flights j = some g) :
    t.flights j = some g := by
  obtain ⟨id,f,hm,-,hother⟩ := step_moves hs
  by_cases hj : j = id
  · subst hj
    rw [hf] at hm
    exact absurd hm (hg j f)
  · rw [hother j hj, hf]

theorem flight_cases (hs : step env s e = some t) (j : ℕ) (g : Flight)
    (hf : t.flights j = some g) :
    s.flights j = some g ∨ ∃ o, s.flights j = o ∧ Moves env s e j o g := by
  obtain ⟨id,f,hm,hid,hother⟩ := step_moves hs
  by_cases hj : j = id
  · subst hj
    rw [hid] at hf
    cases hf
    exact Or.inr ⟨_,rfl,hm⟩
  · rw [hother j hj] at hf
    exact Or.inl hf

end Steps

/-- A password is accepted for every password with the same encryption: where
`crypt` looks at eight bytes, for every one that begins with the same eight. -/
theorem equal_prefix_accepted (env : Env) (u p p' k : Str) (now : Clock) (s : State)
    (hdes : ∀ a b, a.take 8 = b.take 8 → env.crypt a salt = env.crypt b salt)
    (hp : (cStr p).take 8 = (cStr p').take 8) (hname : env.name u = some k)
    (hrow : s.tblUser k = some (encryptPassword env p')) :
    selectPhase env u p now ((env.name u).bind s.tblUser) = .replace (token env u now) := by
  have he : encryptPassword env p' = encryptPassword env p := hdes _ _ hp.symm
  rw [hname, Option.bind_some, hrow, selectPhase, if_pos he]

end WdHttp.UserSignin
