import WdHttp.MultipartParser

/-!
# Reading a multipart body

What the multipart parser is for: a machine that reads one byte after the other, holds
back the beginning of a delimiter until it is known to be one, and tells the name and
the value of each header, the bytes of each part and where the parts begin and end.
-/

set_option autoImplicit false

namespace WdHttp.MultipartReading
open WdHttp.PosixFile WdHttp.MultipartParser

inductive Token where
  | field (name : Bytes)
  | value (text : Bytes)
  | byte (b : UInt8)
  | partBegin
  | headersDone
  | partEnd
  | bodyEnd
  deriving DecidableEq, Repr

inductive Reading where
  | boundary (n : ℕ)
  | line
  | name (read : Bytes)
  | blank
  | gap
  | value (read : Bytes)
  | lineEnd
  | body
  | content
  | held (n : ℕ)
  | ended
  | next
  | hyphen
  | done
  deriving DecidableEq, Repr

variable (B : Bytes)

def opening : Bytes := B ++ [cr,lf]

def delimiter : Bytes := cr :: lf :: B

def inName (read : Bytes) (b : UInt8) : Option (Reading × List Token) :=
  if b = cr then some (.blank,[])
  else if b = colon then some (.gap,[.field read])
  else if isName b then some (.name (read ++ [b]),[])
  else none

def inValue (read : Bytes) (b : UInt8) : Reading × List Token :=
  if b = cr then (.lineEnd,[.value read]) else (.value (read ++ [b]),[])

def inContent (b : UInt8) : Reading × List Token :=
  if b = cr then (.held 1,[]) else (.content,[.byte b])

/-- One byte. Bytes held back are content as soon as they do not go on as the delimiter. -/
def feed : Reading → UInt8 → Option (Reading × List Token)
  | .boundary n, b =>
    if (opening B)[n]? = some b then
      if n+1 = (opening B).length then some (.line,[.partBegin]) else some (.boundary (n+1),[])
    else none
  | .line, b => inName [] b
  | .name read, b => inName read b
  | .blank, b => if b = lf then some (.body,[]) else none
  | .gap, b => if b = space then some (.gap,[]) else some (inValue [] b)
  | .value read, b => some (inValue read b)
  | .lineEnd, b => if b = lf then some (.line,[]) else none
  | .body, b => some ((inContent b).1,.headersDone :: (inContent b).2)
  | .content, b => some (inContent b)
  | .held n, b =>
    if (delimiter B)[n]? = some b then
      if n+1 = (delimiter B).length then some (.ended,[.partEnd]) else some (.held (n+1),[])
    else some ((inContent b).1,((delimiter B).take n).map .byte ++ (inContent b).2)
  | .ended, b =>
    if b = MultipartParser.hyphen then some (.hyphen,[])
    else if b = cr then some (.next,[])
    else none
  | .next, b => if b = lf then some (.line,[.partBegin]) else none
  | .hyphen, b => if b = MultipartParser.hyphen then some (.done,[.bodyEnd]) else none
  | .done, _ => some (.done,[])

/-- A name or a value that the end of the bytes cuts off. -/
def unfinished : Reading → List Token
  | .name read => if read = [] then [] else [.field read]
  | .value read => if read = [] then [] else [.value read]
  | _ => []

/-- The tokens, the bytes that were not read and, when there are none, where the reading stands. -/
structure Report where
  tokens : List Token
  rest : Bytes
  last : Option Reading
  deriving DecidableEq, Repr

def Report.after (o : Report) (ts : List Token) : Report := { o with tokens := ts ++ o.tokens }

/-- What is read of the bytes; they are left from the first one on that does not fit. -/
def report : Reading → Bytes → Report
  | r, [] => ⟨unfinished r,[],some r⟩
  | r, b :: bs =>
    match feed B r b with
    | none => ⟨[],b :: bs,none⟩
    | some (r',ts) => (report r' bs).after ts

@[simp] theorem after_nil (o : Report) : o.after [] = o := rfl

theorem after_after (o : Report) (ts us : List Token) :
    (o.after us).after ts = o.after (ts ++ us) := by
  simp [Report.after]

@[simp] theorem after_rest (o : Report) (ts : List Token) : (o.after ts).rest = o.rest := rfl

@[simp] theorem after_last (o : Report) (ts : List Token) : (o.after ts).last = o.last := rfl

variable {B}

theorem report_feed {r r' : Reading} {b : UInt8} {ts : List Token} (bs : Bytes)
    (h : feed B r b = some (r',ts)) : report B r (b :: bs) = (report B r' bs).after ts := by
  rw [report, h]

theorem report_reject {r : Reading} {b : UInt8} (bs : Bytes) (h : feed B r b = none) :
    report B r (b :: bs) = ⟨[],b :: bs,none⟩ := by
  rw [report, h]

theorem report_held {n : ℕ} {b : UInt8} (bs : Bytes) (h : (delimiter B)[n]? ≠ some b) :
    report B (.held n) (b :: bs) =
      (report B .content (b :: bs)).after (((delimiter B).take n).map .byte) := by
  have hheld : feed B (.held n) b =
      some ((inContent b).1,((delimiter B).take n).map .byte ++ (inContent b).2) := by
    rw [feed, if_neg h]
  have hcontent : feed B .content b = some ((inContent b).1,(inContent b).2) := rfl
  rw [report_feed bs hheld, report_feed bs hcontent, after_after]

theorem report_body (b : UInt8) (bs : Bytes) :
    report B .body (b :: bs) = (report B .content (b :: bs)).after [.headersDone] := by
  have hbody : feed B .body b = some ((inContent b).1,.headersDone :: (inContent b).2) := rfl
  have hcontent : feed B .content b = some ((inContent b).1,(inContent b).2) := rfl
  rw [report_feed bs hbody, report_feed bs hcontent, after_after]
  rfl

end WdHttp.MultipartReading
