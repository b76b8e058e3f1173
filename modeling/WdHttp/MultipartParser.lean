import WdHttp.ArrayHeap
import WdHttp.MeasuredLoop
import WdHttp.PosixFile
import WdHttp.StrUtil

/-!
# The multipart parser

`MultiPartParser.c` of wfrest. The parser reads a body byte by byte and reports what
it finds to callbacks, in slices of the buffer it was given. A possible delimiter is
kept in `lookbehind` until it is known whether it is one. An access outside a buffer,
or to a byte that was never written, is a fault.
-/

set_option autoImplicit false

namespace WdHttp.MultipartParser
open WdHttp.PosixFile WdHttp.ArrayHeap WdHttp.MeasuredLoop WdHttp.StrUtil

def lf : UInt8 := 10
def cr : UInt8 := 13
def space : UInt8 := 32
def hyphen : UInt8 := 45
def colon : UInt8 := 58

inductive PState where
  | sUninitialized
  | sStart
  | sStartBoundary
  | sHeaderFieldStart
  | sHeaderField
  | sHeadersAlmostDone
  | sHeaderValueStart
  | sHeaderValue
  | sHeaderValueAlmostDone
  | sPartDataStart
  | sPartData
  | sPartDataAlmostBoundary
  | sPartDataBoundary
  | sPartDataAlmostEnd
  | sPartDataEnd
  | sPartDataFinalHyphen
  | sEnd
  deriving DecidableEq, Repr

/-- The calls of `multipart_parser_settings`. -/
inductive Event where
  | headerField (at_ : Bytes)
  | headerValue (at_ : Bytes)
  | partData (at_ : Bytes)
  | partDataBegin
  | headersComplete
  | partDataEnd
  | bodyEnd
  deriving DecidableEq, Repr

structure Parser where
  index : ℕ
  state : PState
  lookbehind : Cells UInt8
  multipartBoundary : Bytes
  deriving DecidableEq, Repr

/-- The boundary ends at its first NUL. Behind it the allocation leaves its length
and nine bytes for `lookbehind`. -/
def multipartParserInit (boundary : Bytes) : Parser :=
  let boundary := boundary.takeWhile (· ≠ 0)
  ⟨0,.sStart,List.replicate (boundary.length+9) none,boundary⟩

/-- A callback changes the user's data and says whether it returned zero. -/
abbrev Settings (σ : Type) := Event → σ → σ × Bool

variable {σ : Type}

structure Config (σ : Type) where
  parser : Parser
  data : σ
  i : ℕ
  mark : ℕ

inductive Result (σ : Type) where
  | fault
  | returned (n : ℕ) (parser : Parser) (data : σ)

abbrev Turn (σ : Type) := Config σ ⊕ Result σ

def Config.goto (c : Config σ) (s : PState) : Config σ :=
  { c with parser := { c.parser with state := s } }

def Config.setIndex (c : Config σ) (n : ℕ) : Config σ :=
  { c with parser := { c.parser with index := n } }

/-- `break`, and `++i` at the end of the loop. -/
def Config.advance (c : Config σ) : Turn σ := .inl { c with i := c.i+1 }

/-- `mark = i--; break`, and then `++i`. -/
def Config.again (c : Config σ) : Turn σ := .inl { c with mark := c.i }

def Config.stop (c : Config σ) : Turn σ := .inr (.returned c.i c.parser c.data)

/-- `NOTIFY_CB` and `EMIT_DATA_CB`. -/
def Config.call (on : Settings σ) (c : Config σ) (e : Event) (k : Config σ → Turn σ) : Turn σ :=
  let c' := { c with data := (on e c.data).1 }
  if (on e c.data).2 then k c' else c'.stop

def slice (buf : Bytes) (mark j : ℕ) : Option Bytes :=
  if mark ≤ j ∧ j ≤ buf.length then some ((buf.take j).drop mark) else none

def Config.emit (on : Settings σ) (buf : Bytes) (c : Config σ) (kind : Bytes → Event) (j : ℕ)
    (k : Config σ → Turn σ) : Turn σ :=
  match slice buf c.mark j with
  | none => .inr .fault
  | some bs => c.call on (kind bs) k

/-- The first bytes of `lookbehind`. -/
def Config.emitLookbehind (on : Settings σ) (c : Config σ) (n : ℕ) (k : Config σ → Turn σ) :
    Turn σ :=
  match (c.parser.lookbehind.take n).mapM id with
  | none => .inr .fault
  | some bs => if bs.length = n then c.call on (.partData bs) k else .inr .fault

def Config.store (c : Config σ) (n : ℕ) (b : UInt8) (k : Config σ → Turn σ) : Turn σ :=
  if n < c.parser.lookbehind.length then
    k { c with parser := { c.parser with lookbehind := c.parser.lookbehind.set n (some b) } }
  else .inr .fault

/-- `multipart_boundary`, with its terminator. -/
def Parser.boundaryAt (p : Parser) (n : ℕ) : Option UInt8 := (p.multipartBoundary ++ [0])[n]?

/-- A character of a header name. As a signed `char`, a byte from 128 on is below `'a'`. -/
def isName (c : UInt8) : Bool := c = hyphen || (97 ≤ tolower c && tolower c ≤ 122)

section Turns

variable (on : Settings σ) (buf : Bytes) (c : Config σ) (ch : UInt8)

def startBoundary : Turn σ :=
  let p := c.parser
  if p.index = p.multipartBoundary.length then
    if ch ≠ cr then c.stop else (c.setIndex (p.index+1)).advance
  else if p.index = p.multipartBoundary.length+1 then
    if ch ≠ lf then c.stop
    else (c.setIndex 0).call on .partDataBegin fun c => (c.goto .sHeaderFieldStart).advance
  else
    match p.boundaryAt p.index with
    | none => .inr .fault
    | some b => if ch ≠ b then c.stop else (c.setIndex (p.index+1)).advance

def isLast : Bool := c.i+1 = buf.length

def headerField : Turn σ :=
  if ch = cr then (c.goto .sHeadersAlmostDone).advance
  else if ch = colon then
    c.emit on buf .headerField c.i fun c => (c.goto .sHeaderValueStart).advance
  else if ¬ isName ch then c.stop
  else if isLast buf c then c.emit on buf .headerField (c.i+1) Config.advance
  else c.advance

def headerValue : Turn σ :=
  if ch = cr then
    c.emit on buf .headerValue c.i fun c => (c.goto .sHeaderValueAlmostDone).advance
  else if isLast buf c then c.emit on buf .headerValue (c.i+1) Config.advance
  else c.advance

def partData : Turn σ :=
  if ch = cr then
    c.emit on buf .partData c.i fun c =>
      (({ c with mark := c.i } : Config σ).goto .sPartDataAlmostBoundary).store 0 cr
        Config.advance
  else if isLast buf c then c.emit on buf .partData (c.i+1) Config.advance
  else c.advance

def partDataBoundary : Turn σ :=
  match c.parser.boundaryAt c.parser.index with
  | none => .inr .fault
  | some b =>
    if b ≠ ch then
      c.emitLookbehind on (2+c.parser.index) fun c => (c.goto .sPartData).again
    else
      c.store (2+c.parser.index) ch fun c =>
        let c := c.setIndex (c.parser.index+1)
        if c.parser.index = c.parser.multipartBoundary.length then
          c.call on .partDataEnd fun c => (c.goto .sPartDataAlmostEnd).advance
        else c.advance

/-- One turn of the loop at the byte `ch`. -/
def onByte : Turn σ :=
  match c.parser.state with
  | .sStart => startBoundary on ((c.setIndex 0).goto .sStartBoundary) ch
  | .sStartBoundary => startBoundary on c ch
  | .sHeaderFieldStart =>
    headerField on buf (({ c with mark := c.i } : Config σ).goto .sHeaderField) ch
  | .sHeaderField => headerField on buf c ch
  | .sHeadersAlmostDone => if ch ≠ lf then c.stop else (c.goto .sPartDataStart).advance
  | .sHeaderValueStart =>
    if ch = space then c.advance
    else headerValue on buf (({ c with mark := c.i } : Config σ).goto .sHeaderValue) ch
  | .sHeaderValue => headerValue on buf c ch
  | .sHeaderValueAlmostDone => if ch ≠ lf then c.stop else (c.goto .sHeaderFieldStart).advance
  | .sPartDataStart =>
    c.call on .headersComplete fun c =>
      partData on buf (({ c with mark := c.i } : Config σ).goto .sPartData) ch
  | .sPartData => partData on buf c ch
  | .sPartDataAlmostBoundary =>
    if ch = lf then ((c.goto .sPartDataBoundary).store 1 lf fun c => (c.setIndex 0).advance)
    else c.emitLookbehind on 1 fun c => (c.goto .sPartData).again
  | .sPartDataBoundary => partDataBoundary on c ch
  | .sPartDataAlmostEnd =>
    if ch = hyphen then (c.goto .sPartDataFinalHyphen).advance
    else if ch = cr then (c.goto .sPartDataEnd).advance
    else c.stop
  | .sPartDataFinalHyphen =>
    if ch = hyphen then c.call on .bodyEnd fun c => (c.goto .sEnd).advance else c.stop
  | .sPartDataEnd =>
    if ch = lf then (c.goto .sHeaderFieldStart).call on .partDataBegin Config.advance else c.stop
  | .sEnd => c.advance
  | .sUninitialized => .inr (.returned 0 c.parser c.data)

end Turns

def turn (on : Settings σ) (buf : Bytes) (c : Config σ) : Turn σ :=
  match buf[c.i]? with
  | none => .inr (.returned buf.length c.parser c.data)
  | some ch => onByte on buf c ch

/-- A byte is looked at a second time only where a possible delimiter turns out to be none. -/
def withheld : PState → ℕ
  | .sPartDataAlmostBoundary => 1
  | .sPartDataBoundary => 1
  | _ => 0

def turnsLeft (buf : Bytes) (c : Config σ) : ℕ := 2*(buf.length-c.i)+withheld c.parser.state

def multipartParserExecute (on : Settings σ) (p : Parser) (d : σ) (buf : Bytes) :
    Option (Result σ) :=
  runs (turn on buf) (turnsLeft buf) ⟨p,d,0,0⟩

/-- What a turn leads to: the property of the next state, or of the result. -/
def Turn.All (P : Config σ → Prop) (Q : Result σ → Prop) : Turn σ → Prop
  | .inl c => P c
  | .inr r => Q r

section Rules

variable {on : Settings σ} {buf : Bytes} {c : Config σ} {k : Config σ → Turn σ}
  {P : Config σ → Prop} {Q : Result σ → Prop}

theorem all_call (e : Event)
    (hk : (on e c.data).2 = true → Turn.All P Q (k { c with data := (on e c.data).1 }))
    (hs : (on e c.data).2 = false → Q (.returned c.i c.parser (on e c.data).1)) :
    Turn.All P Q (c.call on e k) := by
  cases h : (on e c.data).2 with
  | true => simpa [Config.call, h] using hk h
  | false => simpa [Config.call, h, Config.stop, Turn.All] using hs h

theorem all_emit (kind : Bytes → Event) (j : ℕ) (hm : c.mark ≤ j) (hj : j ≤ buf.length)
    (h : Turn.All P Q (c.call on (kind ((buf.take j).drop c.mark)) k)) :
    Turn.All P Q (c.emit on buf kind j k) := by
  rwa [Config.emit, slice, if_pos ⟨hm,hj⟩]

theorem all_emitLookbehind (n : ℕ) (bs : Bytes) (hn : bs.length = n)
    (hl : c.parser.lookbehind.take n = bs.map some)
    (h : Turn.All P Q (c.call on (.partData bs) k)) :
    Turn.All P Q (c.emitLookbehind on n k) := by
  have hm : (bs.map some).mapM id = some bs := by
    rw [List.mapM_map]
    exact List.mapM_pure.trans (congrArg some (List.map_id bs))
  rw [Config.emitLookbehind, hl, hm]
  simpa [hn] using h

theorem all_store (n : ℕ) (b : UInt8) (hn : n < c.parser.lookbehind.length)
    (h : Turn.All P Q (k { c with parser :=
      { c.parser with lookbehind := c.parser.lookbehind.set n (some b) } })) :
    Turn.All P Q (c.store n b k) := by
  rwa [Config.store, if_pos hn]

end Rules

section Measure

variable {on : Settings σ} {buf : Bytes} {c : Config σ} {P : Config σ → Prop}

theorem next_call (e : Event) (k : Config σ → Turn σ)
    (hk : ∀ d, Turn.All P (fun _ => True) (k { c with data := d })) :
    Turn.All P (fun _ => True) (c.call on e k) :=
  all_call e (fun _ => hk _) fun _ => trivial

theorem next_emit (kind : Bytes → Event) (j : ℕ) (k : Config σ → Turn σ)
    (hk : ∀ d, Turn.All P (fun _ => True) (k { c with data := d })) :
    Turn.All P (fun _ => True) (c.emit on buf kind j k) := by
  rw [Config.emit]
  split
  · trivial
  · exact next_call _ k hk

theorem next_emitLookbehind (n : ℕ) (k : Config σ → Turn σ)
    (hk : ∀ d, Turn.All P (fun _ => True) (k { c with data := d })) :
    Turn.All P (fun _ => True) (c.emitLookbehind on n k) := by
  rw [Config.emitLookbehind]
  split
  · trivial
  · split
    · exact next_call _ k hk
    · trivial

theorem next_store (n : ℕ) (b : UInt8) (k : Config σ → Turn σ)
    (hk : ∀ l, Turn.All P (fun _ => True)
      (k { c with parser := { c.parser with lookbehind := l } })) :
    Turn.All P (fun _ => True) (c.store n b k) := by
  rw [Config.store]
  split
  · exact hk _
  · trivial

/-- The next byte, or the same byte outside a possible delimiter. -/
def Onward (c c' : Config σ) : Prop :=
  c'.i = c.i+1 ∨ c'.i = c.i ∧ withheld c.parser.state = 1 ∧ withheld c'.parser.state = 0

variable (on buf c) in
theorem onByte_onward (ch : UInt8) : Turn.All (Onward c) (fun _ => True) (onByte on buf c ch) := by
  have hfwd : ∀ c' : Config σ, c'.i = c.i → Turn.All (Onward c) (fun _ => True) c'.advance := by
    intro c' hi
    exact Or.inl (congrArg (·+1) hi)
  have hstop : ∀ c' : Config σ, Turn.All (Onward c) (fun _ => True) c'.stop := fun _ => trivial
  have hstart : ∀ c' : Config σ, c'.i = c.i →
      Turn.All (Onward c) (fun _ => True) (startBoundary on c' ch) := by
    intro c' hi
    rw [startBoundary]
    split
    · split
      · exact hstop _
      · exact hfwd _ hi
    · split
      · split
        · exact hstop _
        · exact next_call _ _ fun _ => hfwd _ hi
      · split
        · trivial
        · split
          · exact hstop _
          · exact hfwd _ hi
  have hfield : ∀ c' : Config σ, c'.i = c.i →
      Turn.All (Onward c) (fun _ => True) (headerField on buf c' ch) := by
    intro c' hi
    rw [headerField]
    split
    · exact hfwd _ hi
    · split
      · exact next_emit _ _ _ fun _ => hfwd _ hi
      · split
        · exact hstop _
        · split
          · exact next_emit _ _ _ fun _ => hfwd _ hi
          · exact hfwd _ hi
  have hvalue : ∀ c' : Config σ, c'.i = c.i →
      Turn.All (Onward c) (fun _ => True) (headerValue on buf c' ch) := by
    intro c' hi
    rw [headerValue]
    split
    · exact next_emit _ _ _ fun _ => hfwd _ hi
    · split
      · exact next_emit _ _ _ fun _ => hfwd _ hi
      · exact hfwd _ hi
  have hdata : ∀ c' : Config σ, c'.i = c.i →
      Turn.All (Onward c) (fun _ => True) (partData on buf c' ch) := by
    intro c' hi
    rw [partData]
    split
    · exact next_emit _ _ _ fun _ => next_store _ _ _ fun _ => hfwd _ hi
    · split
      · exact next_emit _ _ _ fun _ => hfwd _ hi
      · exact hfwd _ hi
  rw [onByte]
  split
  next => exact hstart _ rfl
  next => exact hstart _ rfl
  next => exact hfield _ rfl
  next => exact hfield _ rfl
  next =>
    split
    · exact hstop _
    · exact hfwd _ rfl
  next =>
    split
    · exact hfwd _ rfl
    · exact hvalue _ rfl
  next => exact hvalue _ rfl
  next =>
    split
    · exact hstop _
    · exact hfwd _ rfl
  next => exact next_call _ _ fun _ => hdata _ rfl
  next => exact hdata _ rfl
  next hst =>
    split
    · exact next_store _ _ _ fun _ => hfwd _ rfl
    · exact next_emitLookbehind _ _ fun _ => Or.inr ⟨rfl,by rw [hst]; rfl,rfl⟩
  next hst =>
    rw [partDataBoundary]
    split
    · trivial
    · split
      · exact next_emitLookbehind _ _ fun _ => Or.inr ⟨rfl,by rw [hst]; rfl,rfl⟩
      · refine next_store _ _ _ fun _ => ?_
        dsimp only
        split
        · exact next_call _ _ fun _ => hfwd _ rfl
        · exact hfwd _ rfl
  next =>
    split
    · exact hfwd _ rfl
    · split
      · exact hfwd _ rfl
      · exact hstop _
  next =>
    split
    · exact next_call _ _ fun _ => hfwd _ rfl
    · exact hstop _
  next =>
    split
    · exact next_call _ _ fun _ => hfwd _ rfl
    · exact hstop _
  next => exact hfwd _ rfl
  next => trivial

theorem turn_lt (c c' : Config σ) (h : turn on buf c = .inl c') :
    turnsLeft buf c' < turnsLeft buf c := by
  rw [turn] at h
  split at h
  · cases h
  · rename_i ch hch
    have hlt := (List.getElem?_eq_some_iff.mp hch).1
    have hgo := onByte_onward on buf c ch
    rw [h] at hgo
    have hw : ∀ s, withheld s ≤ 1 := by
      intro s
      cases s <;> decide
    have hw' := hw c'.parser.state
    rcases hgo with hi | ⟨hi,h1,h0⟩
    · simp only [turnsLeft, hi]
      omega
    · simp only [turnsLeft, hi, h1, h0]
      omega

end Measure

end WdHttp.MultipartParser
