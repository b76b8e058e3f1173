import WdHttp.MultipartGrammar
import WdHttp.MultipartRefinement
import WdHttp.PartialRun

/-!
# Multipart forms

`HttpContent.cc` of wfrest: the callbacks that collect a form from the calls of the
multipart parser, and `parse_multipart`. Making the string for a name or a file name
can throw, and the call of the parser is then left at once.
-/

set_option autoImplicit false

namespace WdHttp.MultipartForm
open WdHttp.PartialRun WdHttp.PosixFile WdHttp.StrUtil WdHttp.MultipartParser
open WdHttp.MultipartReading WdHttp.MultipartRefinement WdHttp.MultipartGrammar

/-- `std::map<std::string, std::pair<std::string, std::string>>`: file name and body. -/
abbrev Form := Bytes → Option (Bytes × Bytes)

def semicolon : UInt8 := 59

structure Labels where
  name : Bytes
  filename : Bytes
  deriving DecidableEq, Repr

structure Userdata where
  headerField : Bytes
  headerValue : Bytes
  partData : Bytes
  labels : Labels
  mp : Form

/-- One piece of `Content-Disposition`. -/
def dispose (l : Labels) (dispo : Bytes) : Option Labels :=
  match splitPiece equals (trim dispo) with
  | [k,v] =>
    if ascii "name" <+: k then (trimPairs v quotes).map fun value => { l with name := value }
    else if ascii "filename" <+: k then
      (trimPairs v quotes).map fun value => { l with filename := value }
    else some l
  | _ => some l

def isDisposition (field : Bytes) : Bool := strcasecmp field (ascii "Content-Disposition")

/-- What the value of a header does to the names. -/
def relabel (field value : Bytes) (l : Labels) : Option Labels :=
  if isDisposition field then run dispose l (splitPiece semicolon value) else some l

def handleHeader (u : Userdata) : Option Userdata :=
  if u.headerField = [] ∨ u.headerValue = [] then some u
  else (relabel u.headerField u.headerValue u.labels).map fun l =>
    { u with labels := l, headerField := [], headerValue := [] }

def handleData (u : Userdata) : Userdata :=
  { u with
    mp :=
      if u.labels.name = [] then u.mp
      else Function.update u.mp u.labels.name (some (u.labels.filename,u.partData))
    labels := ⟨[],[]⟩
    partData := [] }

/-- The callbacks; each returns zero unless it throws. -/
def onEvent : Event → Userdata → Option Userdata
  | .headerField at_, u =>
    (handleHeader u).map fun u => { u with headerField := u.headerField ++ at_ }
  | .headerValue at_, u => some { u with headerValue := u.headerValue ++ at_ }
  | .partData at_, u => some { u with partData := u.partData ++ at_ }
  | .partDataBegin, u => some u
  | .headersComplete, u => handleHeader u
  | .partDataEnd, u => some (handleData u)
  | .bodyEnd, u => some u

def settings : Settings (Option Userdata) := fun e d =>
  match d.bind (onEvent e) with
  | none => (none,false)
  | some u => (some u,true)

def noUserdata : Userdata := ⟨[],[],[],⟨[],[]⟩,fun _ => none⟩

def dashed (boundary : Bytes) : Bytes := ascii "--" ++ boundary

/-- The form, or `none` for an exception. -/
def parseMultipart (boundary body : Bytes) : Option Form :=
  match multipartParserExecute settings (multipartParserInit (dashed boundary)) (some noUserdata)
    body with
  | some (.returned _ _ (some u)) => some u.mp
  | _ => none

def onToken (u : Userdata) : Token → Option Userdata
  | .field name => onEvent (.headerField name) u
  | .value text => onEvent (.headerValue text) u
  | .byte b => onEvent (.partData [b]) u
  | .partBegin => onEvent .partDataBegin u
  | .headersDone => onEvent .headersComplete u
  | .partEnd => onEvent .partDataEnd u
  | .bodyEnd => onEvent .bodyEnd u

theorem run_bytes (bs : Bytes) (u : Userdata) :
    run onToken u (bs.map .byte) = some { u with partData := u.partData ++ bs } := by
  induction bs generalizing u with
  | nil => simp
  | cons b bs ih =>
    refine (ih { u with partData := u.partData ++ [b] }).trans ?_
    simp

theorem run_flat (e : Event) (u : Userdata) : run onToken u (flat e) = onEvent e u := by
  cases e with
  | partData bs => exact run_bytes bs u
  | headerField bs => exact Option.bind_fun_some _
  | headerValue bs => rfl
  | partDataBegin => rfl
  | headersComplete => exact Option.bind_fun_some _
  | partDataEnd => rfl
  | bodyEnd => rfl

/-- The callbacks see the same whether the bytes of a part come in slices or one by one. -/
theorem deliver_settings (log : List Event) (u : Userdata) :
    deliver settings log (some u) =
      (run onToken u (log.flatMap flat),(run onToken u (log.flatMap flat)).isSome) := by
  induction log generalizing u with
  | nil => rfl
  | cons e log ih =>
    rw [deliver, List.flatMap_cons, run_append, run_flat]
    cases he : onEvent e u with
    | none => simp [settings, he]
    | some u' =>
      simp only [settings, Option.bind_some, he, if_true]
      exact ih u'

def cleanBoundary (boundary : Bytes) : Bytes := (dashed boundary).takeWhile (· ≠ 0)

/-- `parse_multipart` on any body is the reading of the body. -/
theorem parseMultipart_eq (boundary body : Bytes) :
    parseMultipart boundary body =
      (run onToken noUserdata
        (report (cleanBoundary boundary) (.boundary 0) body).tokens).map Userdata.mp := by
  have hwf : Wf (cleanBoundary boundary) (multipartParserInit (dashed boundary)) :=
    wf_init (dashed boundary) (List.cons_ne_nil _ _)
  obtain ⟨r,hr,ha⟩ := execute_answers settings _ _ (some noUserdata) body hwf
  rw [parseMultipart, hr]
  cases r with
  | fault => exact ha.elim
  | returned n p d =>
    obtain ⟨log,⟨rest,hpre⟩,⟨hlog,-⟩ | ⟨hlog,htokens,-⟩⟩ := ha
    · rw [deliver_settings] at hlog
      obtain ⟨hd,hnone⟩ := Prod.mk.inj hlog
      have htok : (report (cleanBoundary boundary) (.boundary 0) body).tokens =
          log.flatMap flat ++ rest := hpre.symm
      rw [Option.isSome_eq_false_iff, Option.isNone_iff_eq_none] at hnone
      rw [htok, run_append, hnone, ← hd, hnone]
      rfl
    · rw [deliver_settings] at hlog
      obtain ⟨hd,hsome⟩ := Prod.mk.inj hlog
      have htok : (report (cleanBoundary boundary) (.boundary 0) body).tokens =
          log.flatMap flat := htokens.symm
      rw [htok, hd]
      cases d with
      | none => rfl
      | some u => rfl

section Parts

/-- A header as it takes effect. A header without a value is not handled: its name stays
and stands before the name of the next header. -/
def onHeader (u : Userdata) (h : Header) : Option Userdata :=
  if h.value = [] then some { u with headerField := u.headerField ++ h.name }
  else (relabel (u.headerField ++ h.name) h.value u.labels).map fun l =>
    { u with labels := l, headerField := [] }

def addPart (u : Userdata) (p : Part) : Option Userdata :=
  (run onHeader u p.headers).map fun u => handleData { u with partData := p.content }

/-- No value is waiting for `handle_header`, and no content for `handle_data`. -/
def Settled (u : Userdata) : Prop := u.headerValue = [] ∧ u.partData = []

theorem onHeader_settled (u : Userdata) (h : Header) (u' : Userdata) (hu : Settled u)
    (hs : onHeader u h = some u') : Settled u' := by
  rw [onHeader] at hs
  split at hs
  · exact Option.some.inj hs ▸ hu
  · obtain ⟨l,-,rfl⟩ := Option.map_eq_some_iff.mp hs
    exact hu

theorem addPart_settled (u : Userdata) (p : Part) (u' : Userdata) (hu : Settled u)
    (h : addPart u p = some u') : Settled u' := by
  obtain ⟨v,hv,rfl⟩ := Option.map_eq_some_iff.mp h
  exact ⟨(run_invariant Settled onHeader_settled u v p.headers hu hv).1,rfl⟩

def pend (u : Userdata) (h : Header) : Userdata :=
  { u with headerField := u.headerField ++ h.name, headerValue := h.value }

theorem handleHeader_settled {u : Userdata} (hu : Settled u) : handleHeader u = some u :=
  if_pos (Or.inr hu.1)

theorem handleHeader_pend {u : Userdata} {h : Header} (hu : Settled u) (hn : h.name ≠ []) :
    handleHeader (pend u h) = onHeader u h := by
  have hv := hu.1
  by_cases hempty : h.value = []
  · simp [handleHeader, onHeader, pend, hempty, hv]
  · simp [handleHeader, onHeader, pend, hempty, hn, hv]

theorem run_handled (u v : Userdata) (h : handleHeader v = handleHeader u) (hs : List Header) :
    run onToken v (hs.flatMap Header.tokens ++ [.headersDone]) =
      run onToken u (hs.flatMap Header.tokens ++ [.headersDone]) := by
  have hfirst : ∀ t, t = .headersDone ∨ (∃ n, t = .field n) → onToken v t = onToken u t := by
    rintro t (rfl | ⟨n,rfl⟩)
    · exact h
    · exact congrArg (Option.map _) h
  cases hs with
  | nil => exact congrArg (Option.bind · _) (hfirst _ (Or.inl rfl))
  | cons h hs => exact congrArg (Option.bind · _) (hfirst _ (Or.inr ⟨h.name,rfl⟩))

theorem run_headers (hs : List Header) (hn : ∀ h ∈ hs, h.name ≠ []) (u : Userdata)
    (hu : Settled u) :
    run onToken u (hs.flatMap Header.tokens ++ [.headersDone]) = run onHeader u hs := by
  induction hs generalizing u with
  | nil =>
    change (handleHeader u).bind some = some u
    rw [handleHeader_settled hu]
    rfl
  | cons h hs ih =>
    have hpend : run onToken u h.tokens = some (pend u h) := by
      change ((handleHeader u).map _).bind _ = _
      rw [handleHeader_settled hu]
      change some { u with headerField := _, headerValue := u.headerValue ++ h.value } = _
      rw [hu.1]
      rfl
    have hstep := handleHeader_pend hu (hn h List.mem_cons_self)
    have hrest := ih fun h' hh' => hn h' (List.mem_cons_of_mem _ hh')
    rw [List.flatMap_cons, List.append_assoc, run_append, hpend, Option.bind_some, run]
    cases ho : onHeader u h with
    | some u' =>
      have hu' := onHeader_settled u h u' hu ho
      rw [run_handled u' _ ((hstep.trans ho).trans (handleHeader_settled hu').symm)]
      exact hrest u' hu'
    | none =>
      rw [ho] at hstep
      cases hs with
      | nil => exact congrArg (Option.bind · _) hstep
      | cons h' hs =>
        change ((handleHeader (pend u h)).map _).bind _ = none
        rw [hstep]
        rfl

theorem run_part (p : Part) (hn : ∀ h ∈ p.headers, h.name ≠ []) (u : Userdata)
    (hu : Settled u) : run onToken u (.partBegin :: p.tokens) = addPart u p := by
  have htokens : p.tokens = (p.headers.flatMap Header.tokens ++ [.headersDone]) ++
      (p.content.map .byte ++ [.partEnd]) := by
    simp [Part.tokens]
  change run onToken u p.tokens = _
  rw [htokens, run_append, run_headers _ hn u hu, addPart]
  cases hh : run onHeader u p.headers with
  | none => rfl
  | some u' =>
    have hu' := run_invariant Settled onHeader_settled u u' p.headers hu hh
    rw [Option.bind_some, run_append, run_bytes, hu'.2]
    rfl

theorem run_parts (ps : List Part) (hn : ∀ p ∈ ps, ∀ h ∈ p.headers, h.name ≠ []) (u : Userdata)
    (hu : Settled u) : run onToken u (bodyTokens ps) = run addPart u ps := by
  induction ps generalizing u with
  | nil => rfl
  | cons p ps ih =>
    have hhead := run_part p (hn p List.mem_cons_self) u hu
    have hsplit : bodyTokens (p :: ps) = (.partBegin :: p.tokens) ++ bodyTokens ps := by
      simp [bodyTokens]
    rw [hsplit, run_append, hhead, run]
    cases ha : addPart u p with
    | none => rfl
    | some u' =>
      exact ih (fun q hq => hn q (List.mem_cons_of_mem _ hq)) u' (addPart_settled u p u' hu ha)

theorem parseMultipart_body (boundary : Bytes) (ps : List Part) (epilogue : Bytes)
    (hcr : cr ∉ boundary) (h0 : 0 ∉ boundary) (hne : ps ≠ [])
    (hps : ∀ p ∈ ps, p.Ok (dashed boundary)) (hn : ∀ p ∈ ps, ∀ h ∈ p.headers, h.name ≠ []) :
    parseMultipart boundary (bodyText (dashed boundary) ps epilogue) =
      (run addPart noUserdata ps).map Userdata.mp := by
  have hclean : cleanBoundary boundary = dashed boundary := by
    rw [cleanBoundary, List.takeWhile_eq_self_iff]
    intro b hb
    refine decide_eq_true fun h => ?_
    rcases List.mem_append.mp hb with hb | hb
    · rw [h] at hb
      exact absurd hb (by decide)
    · exact h0 (h ▸ hb)
  have hcr' : cr ∉ dashed boundary := by
    rw [dashed, List.mem_append, not_or]
    exact ⟨by decide,hcr⟩
  rw [parseMultipart_eq, hclean, report_bodyText hcr' hne hps,
    run_parts ps hn noUserdata ⟨rfl,rfl⟩]

end Parts

section Throws

/-- A piece that sets a name to a text that is a lone quote. -/
def Throws (dispo : Bytes) : Prop :=
  ∃ k v, splitPiece equals (trim dispo) = [k,v] ∧
    (ascii "name" <+: k ∨ ascii "filename" <+: k) ∧ (v = [34] ∨ v = [39])

theorem trimPairs_eq_none_iff (v : Bytes) : trimPairs v quotes = none ↔ v = [34] ∨ v = [39] := by
  match v with
  | [] => decide
  | [b] =>
    simp only [trimPairs, quotes, List.any_cons, List.any_nil, List.head?_cons,
      List.getLast?_singleton, List.length_singleton]
    simp [or_iff_not_imp_left]
  | a :: b :: v =>
    have hlen : 2 ≤ (a :: b :: v).length := by simp
    rw [trimPairs, if_pos hlen]
    constructor
    · intro h
      split at h <;> cases h
    · rintro (h | h) <;> cases h

theorem dispose_eq_none_iff (l : Labels) (dispo : Bytes) :
    dispose l dispo = none ↔ Throws dispo := by
  rw [dispose]
  split
  next k v hkv =>
    have hthrows : Throws dispo ↔
        (ascii "name" <+: k ∨ ascii "filename" <+: k) ∧ trimPairs v quotes = none := by
      rw [trimPairs_eq_none_iff]
      constructor
      · rintro ⟨k',v',h,hrest⟩
        rw [hkv] at h
        cases h
        exact hrest
      · exact fun h => ⟨k,v,hkv,h⟩
    rw [hthrows]
    split
    next hk => simp [hk]
    next hk =>
      split
      next hf => simp [hf]
      next hf => simp [hk, hf]
  next hno =>
    refine ⟨nofun,?_⟩
    rintro ⟨k,v,h,-⟩
    exact absurd h (hno k v)

def HeaderThrows (h : Header) : Prop :=
  isDisposition h.name = true ∧ ∃ d ∈ splitPiece semicolon h.value, Throws d

theorem relabel_eq_none_iff (h : Header) (l : Labels) :
    relabel h.name h.value l = none ↔ HeaderThrows h := by
  rw [relabel, HeaderThrows]
  split
  next hd =>
    rw [run_eq_none_iff (fun _ => True) Throws (fun _ => True) (fun _ _ _ _ _ _ => trivial)
      (fun l d _ _ => dispose_eq_none_iff l d) l _ trivial fun _ _ => trivial]
    simp [hd]
  next hd => simp [hd]

theorem onHeader_eq_none_iff (u : Userdata) (h : Header) (hu : u.headerField = [])
    (hv : h.value ≠ []) : onHeader u h = none ↔ HeaderThrows h := by
  rw [onHeader, if_neg hv, hu, List.nil_append, Option.map_eq_none_iff, relabel_eq_none_iff]

theorem onHeader_field (u : Userdata) (h : Header) (u' : Userdata) (hv : h.value ≠ [])
    (hs : onHeader u h = some u') : u'.headerField = [] := by
  rw [onHeader, if_neg hv] at hs
  obtain ⟨l,-,rfl⟩ := Option.map_eq_some_iff.mp hs
  rfl

theorem addPart_eq_none_iff (u : Userdata) (p : Part) (hu : u.headerField = [])
    (hv : ∀ h ∈ p.headers, h.value ≠ []) :
    addPart u p = none ↔ ∃ h ∈ p.headers, HeaderThrows h := by
  rw [addPart, Option.map_eq_none_iff]
  exact run_eq_none_iff (fun u => u.headerField = []) HeaderThrows (fun h => h.value ≠ [])
    (fun u h u' _ hv hs => onHeader_field u h u' hv hs)
    (fun u h hu hv => onHeader_eq_none_iff u h hu hv) u p.headers hu hv

theorem addPart_field (u : Userdata) (p : Part) (u' : Userdata) (hu : u.headerField = [])
    (hv : ∀ h ∈ p.headers, h.value ≠ []) (hs : addPart u p = some u') : u'.headerField = [] := by
  obtain ⟨v,hrun,rfl⟩ := Option.map_eq_some_iff.mp hs
  exact along_invariant (G := fun _ h => h.value ≠ []) (fun u => u.headerField = [])
    (fun u h u' _ hv hs => onHeader_field u h u' hv hs) u v p.headers hu
    (along_of_forall u p.headers fun h hh _ => hv h hh) hrun

/-- A body makes the server throw exactly when some part asks for a name or a file name that
is a lone quote. -/
theorem parseMultipart_eq_none_iff (boundary : Bytes) (ps : List Part) (epilogue : Bytes)
    (hcr : cr ∉ boundary) (h0 : 0 ∉ boundary) (hne : ps ≠ [])
    (hps : ∀ p ∈ ps, p.Ok (dashed boundary))
    (hh : ∀ p ∈ ps, ∀ h ∈ p.headers, h.name ≠ [] ∧ h.value ≠ []) :
    parseMultipart boundary (bodyText (dashed boundary) ps epilogue) = none ↔
      ∃ p ∈ ps, ∃ h ∈ p.headers, HeaderThrows h := by
  rw [parseMultipart_body boundary ps epilogue hcr h0 hne hps fun p hp h hm => (hh p hp h hm).1,
    Option.map_eq_none_iff]
  exact run_eq_none_iff (fun u => u.headerField = []) (fun p => ∃ h ∈ p.headers, HeaderThrows h)
    (fun p => ∀ h ∈ p.headers, h.value ≠ []) addPart_field
    (fun u p hu hv => addPart_eq_none_iff u p hu hv) noUserdata ps rfl
    fun p hp h hm => (hh p hp h hm).2

def lonelyPart : Part := ⟨[⟨ascii "Content-Disposition",1,ascii "form-data; name='"⟩],[],[]⟩

theorem parseMultipart_lonely :
    parseMultipart [98] (bodyText (dashed [98]) [lonelyPart] []) = none := by
  have hok : ∀ p ∈ [lonelyPart], p.Ok (dashed [98]) := by
    intro p hp
    obtain rfl := List.mem_singleton.mp hp
    refine ⟨?_,nofun,by decide⟩
    intro h hh
    obtain rfl := List.mem_singleton.mp hh
    refine ⟨List.all_eq_true.mp (by decide),by decide,?_⟩
    intro b hb
    obtain rfl := Option.some.inj hb
    decide
  refine (parseMultipart_eq_none_iff [98] [lonelyPart] [] (by decide) (by decide) (by decide) hok
    (by decide)).mpr ⟨lonelyPart,List.mem_singleton_self _,_,List.mem_singleton_self _,by decide,
      ascii " name='",by decide,ascii "name",[39],by decide,Or.inl (by decide),Or.inr rfl⟩

end Throws

end WdHttp.MultipartForm
