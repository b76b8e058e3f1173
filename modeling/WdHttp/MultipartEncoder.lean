import WdHttp.MultipartForm

/-!
# Encoding a form

`HttpResp::String(MultiPartEncoder *)` of wfrest writes a form as a multipart body. The
parameters are written at once; a task for each file reads it and writes its part, and the
last one closes the body and sends it.
-/

set_option autoImplicit false

namespace WdHttp.MultipartEncoder
open WdHttp.PartialRun WdHttp.PosixFile WdHttp.StrUtil WdHttp.MultipartParser
open WdHttp.MultipartReading WdHttp.MultipartGrammar WdHttp.MultipartForm

def dot : UInt8 := 46
def quote : UInt8 := 34

/-- `HTTP_CONTENT_TYPE_MAP`, each type with its suffix. -/
def contentTypeMap : List (Bytes × Bytes) :=
  [(ascii "text/plain",ascii "txt"),
   (ascii "text/html",ascii "html"),
   (ascii "text/css",ascii "css"),
   (ascii "image/jpeg",ascii "jpg"),
   (ascii "image/png",ascii "png"),
   (ascii "image/gif",ascii "gif"),
   (ascii "image/bmp",ascii "bmp"),
   (ascii "image/svg",ascii "svg"),
   (ascii "application/octet-stream",ascii "bin"),
   (ascii "application/javascript",ascii "js"),
   (ascii "application/xml",ascii "xml"),
   (ascii "application/json",ascii "json"),
   (ascii "application/grpc",ascii "grpc"),
   (ascii "application/x-www-form-urlencoded",ascii "kv"),
   (ascii "multipart/form-data",ascii "mp")]

def toStrBySuffix (suffix : Bytes) : Bytes :=
  match contentTypeMap.find? fun t => t.2 = suffix with
  | some t => t.1
  | none => []

/-- `PathUtil::base`: the last component, or a slash for a path without one. -/
def base (filepath : Bytes) : Bytes :=
  let s := filepath.rdropWhile (· = slash)
  if s = [] then [slash] else s.rtakeWhile (· ≠ slash)

/-- `PathUtil::suffix`: what follows the last dot of the last component. -/
def suffix (filepath : Bytes) : Bytes :=
  let file := filepath.rtakeWhile (· ≠ slash)
  if dot ∈ file then file.rtakeWhile (· ≠ dot) else []

structure Encoder where
  boundary : Bytes
  params : List (Bytes × Bytes)
  files : List (Bytes × Bytes)

/-- What the host answers for a path: whether it is a regular file with a size, and what
the task reads there. -/
structure Host where
  usable : Bytes → Bool
  pread : Bytes → Option Bytes

def crlf : Bytes := [cr,lf]

def separator (first : Bool) : Bytes := if first then [] else crlf

def paramText (boundary : Bytes) (first : Bool) (param : Bytes × Bytes) : Bytes :=
  separator first ++ ascii "--" ++ boundary ++ crlf ++
    ascii "Content-Disposition: form-data; name=" ++ [quote] ++ param.1 ++ [quote] ++ crlf ++
    crlf ++ param.2

def paramsText (boundary : Bytes) : ℕ → List (Bytes × Bytes) → Bytes
  | _, [] => []
  | paramIdx, param :: params =>
    paramText boundary (paramIdx = 0) param ++ paramsText boundary (paramIdx+1) params

def fileText (boundary : Bytes) (first : Bool) (file : Bytes × Bytes) (content : Bytes) : Bytes :=
  separator first ++ ascii "--" ++ boundary ++ crlf ++
    ascii "Content-Disposition: form-data; name=" ++ [quote] ++ file.1 ++ [quote] ++
    ascii "; filename=" ++ [quote] ++ base file.2 ++ [quote] ++ crlf ++ ascii "Content-Type: " ++
    toStrBySuffix (suffix file.2) ++ crlf ++ crlf ++ content

def closing (boundary : Bytes) : Bytes := crlf ++ ascii "--" ++ boundary ++ ascii "--" ++ crlf

structure Task where
  file : Bytes × Bytes
  fileIdx : ℕ
  last : Bool

/-- The loop over the files. A file that cannot be used is left out and not counted. -/
def preadTasks (host : Host) (fileCnt : ℕ) : ℕ → List (Bytes × Bytes) → List Task
  | _, [] => []
  | fileIdx, file :: files =>
    if host.usable file.2 then
      ⟨file,fileIdx,fileIdx = fileCnt-1⟩ :: preadTasks host fileCnt (fileIdx+1) files
    else preadTasks host fileCnt fileIdx files

structure Series where
  content : Bytes
  sent : Option Bytes

def onPread (host : Host) (boundary : Bytes) (paramIdx : ℕ) (s : Series) (t : Task) : Series :=
  let content :=
    match host.pread t.file.2 with
    | none => s.content
    | some bytes =>
      s.content ++ fileText boundary (paramIdx = 0 && t.fileIdx = 0) t.file bytes
  if t.last then ⟨content ++ closing boundary,some (content ++ closing boundary)⟩
  else { s with content := content }

/-- The body of the response once all tasks are done, if one was sent. -/
def respString (host : Host) (enc : Encoder) : Option Bytes :=
  let content := paramsText enc.boundary 0 enc.params
  if enc.files = [] then some (content ++ closing enc.boundary)
  else
    ((preadTasks host enc.files.length 0 enc.files).foldl
      (onPread host enc.boundary enc.params.length) ⟨content,none⟩).sent

section Sent

variable {host : Host} {boundary : Bytes}

theorem foldl_onPread_sent (paramIdx : ℕ) (ts : List Task) (s : Series) :
    (ts.foldl (onPread host boundary paramIdx) s).sent ≠ none ↔
      s.sent ≠ none ∨ ∃ t ∈ ts, t.last = true := by
  induction ts generalizing s with
  | nil => simp
  | cons t ts ih =>
    rw [List.foldl_cons, ih]
    cases hl : t.last with
    | true => simp [onPread, hl]
    | false => simp [onPread, hl]

/-- A task is the last one exactly when all files before it and after it are usable. -/
theorem preadTasks_last (cnt idx : ℕ) (files : List (Bytes × Bytes)) (hne : files ≠ [])
    (hcnt : idx+files.length ≤ cnt) :
    (∃ t ∈ preadTasks host cnt idx files, t.last = true) ↔
      idx+files.length = cnt ∧ ∀ file ∈ files, host.usable file.2 = true := by
  induction files generalizing idx with
  | nil => exact absurd rfl hne
  | cons file files ih =>
    rw [List.length_cons] at hcnt ⊢
    rw [preadTasks, List.forall_mem_cons]
    by_cases hu : host.usable file.2 = true
    · rw [if_pos hu, List.exists_mem_cons_iff, decide_eq_true_eq]
      by_cases hf : files = []
      · subst hf
        simp only [preadTasks, List.not_mem_nil, false_and, exists_false, or_false,
          List.length_nil, hu, IsEmpty.forall_iff, implies_true, and_true] at hcnt ⊢
        omega
      · have hlen := List.length_pos_iff.mpr hf
        rw [ih (idx+1) hf (by omega), Nat.add_assoc idx 1, Nat.add_comm 1]
        constructor
        · rintro (hlast | ⟨heq,hall⟩)
          · omega
          · exact ⟨heq,hu,hall⟩
        · rintro ⟨heq,-,hall⟩
          exact Or.inr ⟨heq,hall⟩
    · rw [if_neg hu]
      by_cases hf : files = []
      · subst hf
        simp [preadTasks, hu]
      · rw [ih idx hf (by omega)]
        constructor
        · rintro ⟨heq,-⟩
          omega
        · rintro ⟨-,hall,-⟩
          exact absurd hall hu

end Sent

/-- The body is sent only when every file is usable: one that is not keeps the count of the
last file from being reached. -/
theorem sent_iff (host : Host) (enc : Encoder) :
    respString host enc ≠ none ↔ ∀ file ∈ enc.files, host.usable file.2 = true := by
  rw [respString]
  split
  next h => simp [h]
  next h =>
    rw [foldl_onPread_sent, preadTasks_last _ _ _ h (by omega)]
    simp

/-- An entry of the form: a parameter has no content type. -/
structure Item where
  name : Bytes
  filename : Bytes
  type : Option Bytes
  content : Bytes

def formData : Bytes := ascii "form-data"
def nameText (name : Bytes) : Bytes := ascii "name=" ++ quote :: (name ++ [quote])
def filenameText (filename : Bytes) : Bytes := ascii "filename=" ++ quote :: (filename ++ [quote])

def Item.disposition (it : Item) : Bytes :=
  formData ++ semicolon :: space :: (nameText it.name ++
    match it.type with
    | none => []
    | some _ => semicolon :: space :: filenameText it.filename)

def contentDisposition : Bytes := ascii "Content-Disposition"
def contentType : Bytes := ascii "Content-Type"

def Item.part (it : Item) : Part :=
  ⟨⟨contentDisposition,1,it.disposition⟩ ::
    (match it.type with
    | none => []
    | some type => [⟨contentType,1,type⟩]),[],it.content⟩

def paramItem (param : Bytes × Bytes) : Item := ⟨param.1,[],none,param.2⟩

def fileItem (host : Host) (file : Bytes × Bytes) : Item :=
  ⟨file.1,base file.2,some (toStrBySuffix (suffix file.2)),(host.pread file.2).getD []⟩

def items (host : Host) (enc : Encoder) : List Item :=
  enc.params.map paramItem ++ enc.files.map (fileItem host)

/-- A text that the decoder takes for one piece. -/
structure Plain (text : Bytes) : Prop where
  semicolon : semicolon ∉ text
  equals : equals ∉ text
  cr : cr ∉ text

instance (text : Bytes) : Decidable (Plain text) :=
  decidable_of_iff (MultipartForm.semicolon ∉ text ∧ equals ∉ text ∧
    MultipartParser.cr ∉ text) ⟨fun h => ⟨h.1,h.2.1,h.2.2⟩,fun h => ⟨h.1,h.2,h.3⟩⟩

structure Encodable (host : Host) (enc : Encoder) : Prop where
  boundary_cr : cr ∉ enc.boundary
  boundary_nul : 0 ∉ enc.boundary
  nonempty : items host enc ≠ []
  usable : ∀ file ∈ enc.files, host.usable file.2 = true
  readable : ∀ file ∈ enc.files, host.pread file.2 ≠ none
  names : ∀ it ∈ items host enc, Plain it.name ∧ it.name ≠ []
  filenames : ∀ it ∈ items host enc, Plain it.filename
  contents : ∀ it ∈ items host enc, ¬ delimiter (dashed enc.boundary) <:+: it.content

section Decode

theorem dispose_formData (l : Labels) : dispose l formData = some l := by
  have hsplit : splitPiece equals (trim formData) = [formData] := by decide
  rw [dispose, hsplit]

theorem trim_labelled (k : Bytes) (a : UInt8) (t : Bytes) (hk : k.head? = some a)
    (ha : isspace a = false) :
    trim (space :: (k ++ quote :: (t ++ [quote]))) = k ++ quote :: (t ++ [quote]) := by
  have hlast : (k ++ quote :: (t ++ [quote])).getLast? = some quote := by
    rw [← List.cons_append, ← List.append_assoc, List.getLast?_concat]
  have hhead : (k ++ quote :: (t ++ [quote])).head? = some a := by
    rw [List.head?_append, hk]
    rfl
  exact trim_blank hhead hlast ha (by decide)

theorem splitPiece_labelled (k t : Bytes) (hk : equals ∉ k) (ht : equals ∉ t) :
    splitPiece equals (k ++ equals :: (quote :: (t ++ [quote]))) = [k,quote :: (t ++ [quote])] := by
  apply splitPiece_pair hk
  simp only [List.mem_cons, List.mem_append, List.not_mem_nil, or_false, not_or]
  exact ⟨by decide,ht,by decide⟩

theorem split_name {t : Bytes} (ht : equals ∉ t) :
    splitPiece equals (trim (space :: nameText t)) = [ascii "name",quote :: (t ++ [quote])] := by
  rw [nameText, trim_labelled (ascii "name=") 110 t rfl rfl]
  exact splitPiece_labelled (ascii "name") t (by decide) ht

theorem split_filename {t : Bytes} (ht : equals ∉ t) :
    splitPiece equals (trim (space :: filenameText t)) =
      [ascii "filename",quote :: (t ++ [quote])] := by
  rw [filenameText, trim_labelled (ascii "filename=") 102 t rfl rfl]
  exact splitPiece_labelled (ascii "filename") t (by decide) ht

theorem dispose_name (l : Labels) {t : Bytes} (ht : equals ∉ t) :
    dispose l (space :: nameText t) = some { l with name := t } := by
  rw [dispose, split_name ht]
  dsimp only
  rw [if_pos (List.prefix_refl _), trimPairs_quoted quote (by decide)]
  rfl

theorem dispose_filename (l : Labels) {t : Bytes} (ht : equals ∉ t) :
    dispose l (space :: filenameText t) = some { l with filename := t } := by
  rw [dispose, split_filename ht]
  dsimp only
  rw [if_neg (by decide), if_pos (List.prefix_refl _), trimPairs_quoted quote (by decide)]
  rfl

theorem relabel_disposition (it : Item) (hn : Plain it.name) (hf : Plain it.filename)
    (l : Labels) :
    relabel contentDisposition it.disposition l =
      some (if it.type = none then { l with name := it.name } else ⟨it.name,it.filename⟩) := by
  have hdisp : isDisposition contentDisposition = true := by decide
  have hform : semicolon ∉ formData := by decide
  have hname : semicolon ∉ space :: nameText it.name := by
    simp only [nameText, List.mem_cons, List.mem_append, List.not_mem_nil, or_false, not_or]
    exact ⟨by decide,by decide,by decide,hn.semicolon,by decide⟩
  have hfile : semicolon ∉ space :: filenameText it.filename := by
    simp only [filenameText, List.mem_cons, List.mem_append, List.not_mem_nil, or_false, not_or]
    exact ⟨by decide,by decide,by decide,hf.semicolon,by decide⟩
  rw [relabel, if_pos hdisp, Item.disposition]
  cases it.type with
  | none =>
    rw [List.append_nil, splitPiece_sep hform, splitFrom_end hname, List.nil_append,
      if_pos rfl, run, dispose_formData, Option.bind_some, run, dispose_name l hn.equals]
    rfl
  | some type =>
    rw [splitPiece_sep hform, ← List.cons_append, splitFrom_sep hname, splitFrom_end hfile,
      List.nil_append, List.nil_append, if_neg (Option.some_ne_none _), run, dispose_formData,
      Option.bind_some, run, dispose_name l hn.equals, Option.bind_some, run,
      dispose_filename _ hf.equals]
    rfl

def store (mp : Form) (it : Item) : Form :=
  Function.update mp it.name (some (it.filename,it.content))

/-- Between two parts; `stale` when the name of a header without a value was left. -/
def between (stale : Bool) (mp : Form) : Userdata :=
  ⟨if stale then contentType else [],[],[],⟨[],[]⟩,mp⟩

/-- What the decoder keeps: an entry behind a file of unknown type is lost, since the name
`Content-Type` of that file stands before its own `Content-Disposition`. -/
def kept : Bool → List Item → List Item
  | _, [] => []
  | lost, it :: its => (if lost then [] else [it]) ++ kept (it.type = some []) its

theorem addPart_item (it : Item) (hn : Plain it.name) (hne : it.name ≠ []) (hf : Plain it.filename)
    (hparam : it.type = none → it.filename = []) (stale : Bool) (mp : Form) :
    addPart (between stale mp) it.part =
      some (between (it.type = some []) (if stale then mp else store mp it)) := by
  have hlabel := relabel_disposition it hn hf ⟨[],[]⟩
  have hvalue : it.disposition ≠ [] := List.cons_ne_nil _ _
  have hstale : relabel (contentType ++ contentDisposition) it.disposition ⟨[],[]⟩ =
      some ⟨[],[]⟩ := if_neg (by decide)
  have htype : ∀ t l, relabel contentType t l = some l := fun t l => if_neg (by decide)
  cases ht : it.type with
  | none =>
    have hname := hparam ht
    rw [ht, if_pos rfl] at hlabel
    cases stale with
    | true =>
      simp [addPart, Item.part, ht, run, onHeader, hvalue, between, hstale, handleData]
    | false =>
      simp [addPart, Item.part, ht, run, onHeader, hvalue, between, hlabel, handleData, hne,
        store, hname]
  | some type =>
    rw [ht, if_neg (Option.some_ne_none _)] at hlabel
    by_cases hempty : type = []
    · cases stale with
      | true =>
        simp [addPart, Item.part, ht, run, onHeader, hvalue, between, hstale, handleData, hempty]
      | false =>
        simp [addPart, Item.part, ht, run, onHeader, hvalue, between, hlabel, handleData, hne,
          store, hempty]
    · cases stale with
      | true =>
        simp [addPart, Item.part, ht, run, onHeader, hvalue, between, hstale, handleData, hempty,
          htype]
      | false =>
        simp [addPart, Item.part, ht, run, onHeader, hvalue, between, hlabel, handleData, hne,
          store, hempty, htype]

theorem run_items (its : List Item) (hn : ∀ it ∈ its, Plain it.name ∧ it.name ≠ [])
    (hf : ∀ it ∈ its, Plain it.filename) (hparam : ∀ it ∈ its, it.type = none → it.filename = [])
    (stale : Bool) (mp : Form) :
    (run addPart (between stale mp) (its.map Item.part)).map Userdata.mp =
      some ((kept stale its).foldl store mp) := by
  induction its generalizing stale mp with
  | nil => rfl
  | cons it its ih =>
    obtain ⟨⟨hname,hne⟩,hn⟩ := List.forall_mem_cons.mp hn
    obtain ⟨hfile,hf⟩ := List.forall_mem_cons.mp hf
    obtain ⟨hp,hparam⟩ := List.forall_mem_cons.mp hparam
    rw [List.map_cons, run, addPart_item it hname hne hfile hp, Option.bind_some,
      ih hn hf hparam, kept, List.foldl_append]
    cases stale <;> rfl

end Decode

section Text

theorem paramText_eq (boundary : Bytes) (first : Bool) (param : Bytes × Bytes) :
    paramText boundary first param =
      separator first ++ dashed boundary ++ crlf ++ (paramItem param).part.text := by
  simp [paramText, dashed, paramItem, Item.part, Part.text, Header.text, Item.disposition,
    nameText, crlf, contentDisposition, formData]
  rfl

theorem fileText_eq (host : Host) (boundary : Bytes) (first : Bool) (file : Bytes × Bytes)
    (bytes : Bytes) (hread : host.pread file.2 = some bytes) :
    fileText boundary first file bytes =
      separator first ++ dashed boundary ++ crlf ++ (fileItem host file).part.text := by
  simp [fileText, dashed, fileItem, hread, Item.part, Part.text, Header.text, Item.disposition,
    nameText, filenameText, crlf, contentDisposition, contentType, formData]
  rfl

def itemsText (boundary : Bytes) : Bool → List Item → Bytes
  | _, [] => []
  | first, it :: its =>
    separator first ++ dashed boundary ++ crlf ++ it.part.text ++ itemsText boundary false its

theorem itemsText_append (boundary : Bytes) (first : Bool) (its its' : List Item) :
    itemsText boundary first (its ++ its') =
      itemsText boundary first its ++ itemsText boundary (first && its.isEmpty) its' := by
  induction its generalizing first with
  | nil => simp [itemsText]
  | cons it its ih => simp [itemsText, ih]

theorem paramsText_eq (boundary : Bytes) (idx : ℕ) (params : List (Bytes × Bytes)) :
    paramsText boundary idx params = itemsText boundary (idx = 0) (params.map paramItem) := by
  induction params generalizing idx with
  | nil => rfl
  | cons param params ih =>
    rw [paramsText, paramText_eq, ih, List.map_cons, itemsText,
      decide_eq_false (Nat.succ_ne_zero idx)]

theorem files_sent (host : Host) (boundary : Bytes) (paramIdx cnt : ℕ)
    (files : List (Bytes × Bytes)) (hne : files ≠ [])
    (husable : ∀ file ∈ files, host.usable file.2 = true)
    (hread : ∀ file ∈ files, host.pread file.2 ≠ none) (idx : ℕ) (hcnt : idx+files.length = cnt)
    (s : Series) :
    ((preadTasks host cnt idx files).foldl (onPread host boundary paramIdx) s).sent =
      some (s.content ++ itemsText boundary (paramIdx = 0 && idx = 0) (files.map (fileItem host)) ++
        closing boundary) := by
  induction files generalizing idx s with
  | nil => exact absurd rfl hne
  | cons file files ih =>
    obtain ⟨hu,husable⟩ := List.forall_mem_cons.mp husable
    obtain ⟨hr,hread⟩ := List.forall_mem_cons.mp hread
    obtain ⟨bytes,hbytes⟩ := Option.ne_none_iff_exists'.mp hr
    have htext := fileText_eq host boundary (paramIdx = 0 && idx = 0) file bytes hbytes
    rw [List.length_cons] at hcnt
    rw [preadTasks, if_pos hu, List.foldl_cons, List.map_cons, itemsText]
    by_cases hf : files = []
    · subst hf
      obtain rfl : cnt = idx+1 := hcnt.symm
      simp [preadTasks, onPread, hbytes, htext, itemsText]
    · have hpos := List.length_pos_iff.mpr hf
      have hlast : ¬ idx = cnt-1 := by omega
      rw [ih hf husable hread (idx+1) (by omega)]
      simp [onPread, hlast, hbytes, htext]

theorem itemsText_closing (boundary : Bytes) (its : List Item) :
    itemsText boundary false its ++ closing boundary =
      delimiter (dashed boundary) ++ remainder (dashed boundary) (its.map Item.part) crlf := by
  induction its with
  | nil =>
    simp [itemsText, closing, remainder, delimiter, dashed, crlf]
    rfl
  | cons it its ih =>
    rw [itemsText, List.append_assoc, ih]
    simp [separator, remainder, delimiter, crlf]

theorem respString_eq (host : Host) (enc : Encoder) (h : Encodable host enc) :
    respString host enc =
      some (bodyText (dashed enc.boundary) ((items host enc).map Item.part) crlf) := by
  have htext : itemsText enc.boundary true (items host enc) ++ closing enc.boundary =
      bodyText (dashed enc.boundary) ((items host enc).map Item.part) crlf := by
    cases hits : items host enc with
    | nil => exact absurd hits h.nonempty
    | cons it its =>
      rw [itemsText, List.append_assoc, itemsText_closing]
      simp [separator, bodyText, remainder, crlf]
  rw [respString, ← htext, items, itemsText_append, paramsText_eq]
  split
  next hf => simp [hf, itemsText]
  next hf =>
    have hsent := files_sent host enc.boundary enc.params.length enc.files.length enc.files hf
      h.usable h.readable 0 (Nat.zero_add _)
      ⟨itemsText enc.boundary (decide (0 = 0)) (enc.params.map paramItem),none⟩
    rw [hsent]
    cases enc.params <;> simp

end Text

theorem item_ok {boundary : Bytes} {it : Item} (hn : Plain it.name) (hf : Plain it.filename)
    (htype : ∀ type ∈ it.type, cr ∉ type ∧ ∀ b ∈ type.head?, b ≠ space)
    (hc : ¬ delimiter (dashed boundary) <:+: it.content) : it.part.Ok (dashed boundary) := by
  refine ⟨?_,nofun,hc⟩
  have hname : ∀ b ∈ contentDisposition, isName b = true := List.all_eq_true.mp (by decide)
  have hdisp : Header.Ok ⟨contentDisposition,1,it.disposition⟩ := by
    refine ⟨hname,?_,?_⟩
    · have hn := hn.cr
      have hf := hf.cr
      cases ht : it.type with
      | none =>
        simp only [Item.disposition, ht, nameText, List.mem_append, List.mem_cons,
          List.not_mem_nil, or_false, not_or]
        exact ⟨by decide,by decide,by decide,by decide,by decide,hn,by decide⟩
      | some type =>
        simp only [Item.disposition, ht, nameText, filenameText, List.mem_append, List.mem_cons,
          List.not_mem_nil, or_false, not_or]
        exact ⟨by decide,by decide,by decide,⟨by decide,by decide,hn,by decide⟩,by decide,
          by decide,by decide,by decide,hf,by decide⟩
    · intro b hb
      obtain rfl := Option.some.inj hb
      decide
  cases ht : it.type with
  | none =>
    intro h hh
    simp only [Item.part, ht, List.mem_singleton] at hh
    exact hh ▸ hdisp
  | some type =>
    intro h hh
    simp only [Item.part, ht, List.mem_cons, List.not_mem_nil, or_false] at hh
    rcases hh with rfl | rfl
    · exact hdisp
    · have htypeName : ∀ b ∈ contentType, isName b = true := List.all_eq_true.mp (by decide)
      obtain ⟨hcr,hstart⟩ := htype type ht
      exact ⟨htypeName,hcr,hstart⟩

theorem toStrBySuffix_plain (suffix : Bytes) :
    cr ∉ toStrBySuffix suffix ∧ ∀ b ∈ (toStrBySuffix suffix).head?, b ≠ space := by
  have hmap : ∀ t ∈ contentTypeMap, cr ∉ t.1 ∧ t.1.head? ≠ some space := by decide
  rw [toStrBySuffix]
  split
  next t ht =>
    obtain ⟨hcr,hhead⟩ := hmap t (List.mem_of_find?_eq_some ht)
    exact ⟨hcr,fun b hb h => hhead (h ▸ hb)⟩
  next => exact ⟨nofun,nofun⟩

/-- Entries that a body can carry, as a browser or the encoder writes them. -/
structure Entries (boundary : Bytes) (its : List Item) : Prop where
  nonempty : its ≠ []
  names : ∀ it ∈ its, Plain it.name ∧ it.name ≠ []
  filenames : ∀ it ∈ its, Plain it.filename
  params : ∀ it ∈ its, it.type = none → it.filename = []
  types : ∀ it ∈ its, ∀ type ∈ it.type, cr ∉ type ∧ ∀ b ∈ type.head?, b ≠ space
  contents : ∀ it ∈ its, ¬ delimiter (dashed boundary) <:+: it.content

theorem parseMultipart_items {boundary : Bytes} (hcr : cr ∉ boundary) (h0 : 0 ∉ boundary)
    {its : List Item} (h : Entries boundary its) (epilogue : Bytes) :
    parseMultipart boundary (bodyText (dashed boundary) (its.map Item.part) epilogue) =
      some ((kept false its).foldl store fun _ => none) := by
  have hok : ∀ it ∈ its, it.part.Ok (dashed boundary) := fun it hit =>
    item_ok (h.names it hit).1 (h.filenames it hit) (h.types it hit) (h.contents it hit)
  have hnames : ∀ p ∈ its.map Item.part, ∀ hd ∈ p.headers, hd.name ≠ [] := by
    intro p hp hd hhd
    obtain ⟨it,-,rfl⟩ := List.mem_map.mp hp
    rcases List.mem_cons.mp hhd with rfl | hhd
    · exact List.cons_ne_nil _ _
    · cases ht : it.type with
      | none =>
        rw [ht] at hhd
        cases hhd
      | some type =>
        rw [ht] at hhd
        obtain rfl := List.mem_singleton.mp hhd
        exact List.cons_ne_nil _ _
  rw [parseMultipart_body boundary _ epilogue hcr h0 (List.map_eq_nil_iff.not.mpr h.nonempty)
    (List.forall_mem_map.mpr hok) hnames]
  exact run_items _ h.names h.filenames h.params false _

theorem Encodable.entries {host : Host} {enc : Encoder} (h : Encodable host enc) :
    Entries enc.boundary (items host enc) where
  nonempty := h.nonempty
  names := h.names
  filenames := h.filenames
  contents := h.contents
  params := by
    intro it hit htype
    rcases List.mem_append.mp hit with hit | hit
    · obtain ⟨param,-,rfl⟩ := List.mem_map.mp hit
      rfl
    · obtain ⟨file,-,rfl⟩ := List.mem_map.mp hit
      cases htype
  types := by
    intro it hit type htype
    rcases List.mem_append.mp hit with hit | hit
    · obtain ⟨param,-,rfl⟩ := List.mem_map.mp hit
      cases htype
    · obtain ⟨file,-,rfl⟩ := List.mem_map.mp hit
      obtain rfl := Option.some.inj htype
      exact toStrBySuffix_plain _

/-- What is sent is read back, except an entry right behind a file of unknown type; of several
entries of one name the last counts. -/
theorem parseMultipart_respString (host : Host) (enc : Encoder) (h : Encodable host enc) :
    (respString host enc).bind (parseMultipart enc.boundary) =
      some ((kept false (items host enc)).foldl store fun _ => none) := by
  rw [respString_eq host enc h, Option.bind_some]
  exact parseMultipart_items h.boundary_cr h.boundary_nul h.entries crlf

def sampleEncoder : Encoder :=
  ⟨[98],[([110],[118])],[([102],ascii "d/a.txt"),([103],ascii "d/b")]⟩

def sampleHost : Host := ⟨fun _ => true,fun _ => some [1,2]⟩

theorem parseMultipart_sample :
    (respString sampleHost sampleEncoder).bind (parseMultipart sampleEncoder.boundary) =
      some ((kept false (items sampleHost sampleEncoder)).foldl store fun _ => none) :=
  parseMultipart_respString sampleHost sampleEncoder
    ⟨by decide,by decide,by decide,by decide,by decide,by decide,by decide,by decide⟩

end WdHttp.MultipartEncoder
