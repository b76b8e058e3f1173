import WdHttp.MultipartReading

/-!
# The parser reads

Every call of `multipart_parser_execute` ends without a fault and tells its callbacks
what the reading of the buffer tells, in the same order. The reading is compared with
what a configuration has told already and has still to tell.
-/

set_option autoImplicit false

namespace WdHttp.MultipartRefinement
open WdHttp.PosixFile WdHttp.ArrayHeap WdHttp.MeasuredLoop
open WdHttp.MultipartParser WdHttp.MultipartReading

variable {σ : Type}

def flat : Event → List Token
  | .headerField bs => [.field bs]
  | .headerValue bs => [.value bs]
  | .partData bs => bs.map .byte
  | .partDataBegin => [.partBegin]
  | .headersComplete => [.headersDone]
  | .partDataEnd => [.partEnd]
  | .bodyEnd => [.bodyEnd]

/-- The calls one after the other, up to the first that does not return zero. -/
def deliver (on : Settings σ) : List Event → σ → σ × Bool
  | [], d => (d,true)
  | e :: es, d => if (on e d).2 then deliver on es (on e d).1 else on e d

theorem deliver_append {on : Settings σ} {log log' : List Event} {d d' : σ}
    (h : deliver on log d = (d',true)) : deliver on (log ++ log') d = deliver on log' d' := by
  induction log generalizing d with
  | nil =>
    obtain rfl : d = d' := congrArg Prod.fst h
    rfl
  | cons e log ih =>
    rw [deliver] at h
    split at h
    next ht =>
      rw [List.cons_append, deliver, if_pos ht]
      exact ih h
    next ht => exact absurd (congrArg Prod.snd h) ht

theorem deliver_snoc {on : Settings σ} {log : List Event} {d d' : σ} (e : Event)
    (h : deliver on log d = (d',true)) : deliver on (log ++ [e]) d = on e d' := by
  rw [deliver_append h, deliver]
  split
  next ht => exact Prod.ext rfl ht.symm
  next => rfl

def view (p : Parser) (read : Bytes) : Reading :=
  match p.state with
  | .sUninitialized => .done
  | .sStart => .boundary 0
  | .sStartBoundary => .boundary p.index
  | .sHeaderFieldStart => .line
  | .sHeaderField => .name read
  | .sHeadersAlmostDone => .blank
  | .sHeaderValueStart => .gap
  | .sHeaderValue => .value read
  | .sHeaderValueAlmostDone => .lineEnd
  | .sPartDataStart => .body
  | .sPartData => .content
  | .sPartDataAlmostBoundary => .held 1
  | .sPartDataBoundary => .held (2+p.index)
  | .sPartDataAlmostEnd => .ended
  | .sPartDataEnd => .next
  | .sPartDataFinalHyphen => .hyphen
  | .sEnd => .done

/-- A new call goes on with an empty name or value: the part that was read is told. -/
def resume : Reading → Reading
  | .name _ => .name []
  | .value _ => .value []
  | r => r

theorem resume_view (p : Parser) (read : Bytes) : resume (view p read) = view p [] := by
  rw [view, view]
  cases p.state <;> rfl

/-- `lookbehind` holds the bytes that are held back. -/
structure Wf (B : Bytes) (p : Parser) : Prop where
  known : p.state ≠ .sUninitialized
  boundary : p.multipartBoundary = B
  nonempty : 0 < B.length
  room : p.lookbehind.length = B.length+9
  opening : p.state = .sStartBoundary → p.index ≤ B.length+1
  almost : p.state = .sPartDataAlmostBoundary → p.lookbehind.take 1 = [some cr]
  held : p.state = .sPartDataBoundary → p.index < B.length ∧
    p.lookbehind.take (2+p.index) = ((delimiter B).take (2+p.index)).map some

def Guarded : PState → Prop
  | .sUninitialized => True
  | .sStartBoundary => True
  | .sPartDataAlmostBoundary => True
  | .sPartDataBoundary => True
  | _ => False

section Wf

variable {B : Bytes} {p q : Parser}

theorem Wf.unguarded (hs : ¬ Guarded p.state) (hb : p.multipartBoundary = B) (hne : 0 < B.length)
    (hl : p.lookbehind.length = B.length+9) : Wf B p where
  known := fun h => hs (by rw [h]; trivial)
  boundary := hb
  nonempty := hne
  room := hl
  opening := fun h => absurd (by rw [h]; trivial) hs
  almost := fun h => absurd (by rw [h]; trivial) hs
  held := fun h => absurd (by rw [h]; trivial) hs

theorem Wf.plain (h : Wf B p) (hb : q.multipartBoundary = p.multipartBoundary)
    (hl : q.lookbehind.length = p.lookbehind.length) (hs : ¬ Guarded q.state) : Wf B q :=
  .unguarded hs (hb.trans h.boundary) h.nonempty (hl.trans h.room)

theorem Wf.atOpening (h : Wf B p) (hb : q.multipartBoundary = p.multipartBoundary)
    (hl : q.lookbehind.length = p.lookbehind.length) (hs : q.state = .sStartBoundary)
    (hi : q.index ≤ B.length+1) : Wf B q where
  known := fun h => absurd (hs.symm.trans h) (by decide)
  boundary := hb.trans h.boundary
  nonempty := h.nonempty
  room := hl.trans h.room
  opening := fun _ => hi
  almost := fun h => absurd (hs.symm.trans h) (by decide)
  held := fun h => absurd (hs.symm.trans h) (by decide)

theorem Wf.atAlmost (h : Wf B p) (hb : q.multipartBoundary = p.multipartBoundary)
    (hl : q.lookbehind.length = p.lookbehind.length) (hs : q.state = .sPartDataAlmostBoundary)
    (ht : q.lookbehind.take 1 = [some cr]) : Wf B q where
  known := fun h => absurd (hs.symm.trans h) (by decide)
  boundary := hb.trans h.boundary
  nonempty := h.nonempty
  room := hl.trans h.room
  opening := fun h => absurd (hs.symm.trans h) (by decide)
  almost := fun _ => ht
  held := fun h => absurd (hs.symm.trans h) (by decide)

theorem Wf.atBoundary (h : Wf B p) (hb : q.multipartBoundary = p.multipartBoundary)
    (hl : q.lookbehind.length = p.lookbehind.length) (hs : q.state = .sPartDataBoundary)
    (hi : q.index < B.length)
    (ht : q.lookbehind.take (2+q.index) = ((delimiter B).take (2+q.index)).map some) :
    Wf B q where
  known := fun h => absurd (hs.symm.trans h) (by decide)
  boundary := hb.trans h.boundary
  nonempty := h.nonempty
  room := hl.trans h.room
  opening := fun h => absurd (hs.symm.trans h) (by decide)
  almost := fun h => absurd (hs.symm.trans h) (by decide)
  held := fun _ => ⟨hi,ht⟩

theorem wf_init (boundary : Bytes) (hne : boundary.takeWhile (· ≠ 0) ≠ []) :
    Wf (boundary.takeWhile (· ≠ 0)) (multipartParserInit boundary) :=
  .unguarded id rfl (List.length_pos_iff.mpr hne) List.length_replicate

end Wf

section Turns

variable (on : Settings σ) (buf B : Bytes) (d₀ : σ) (T : Report)

def read (c : Config σ) : Bytes := (buf.take c.i).drop c.mark

def pending (c : Config σ) : List Token :=
  if c.parser.state = .sPartData then (read buf c).map .byte else []

/-- What the rest of the buffer will tell. -/
def ahead (c : Config σ) : Report :=
  if c.i < buf.length then
    (report B (view c.parser (read buf c)) (buf.drop c.i)).after (pending buf c)
  else ⟨[],[],some (view c.parser (read buf c))⟩

def Delivers (d : σ) (o : Report) : Prop :=
  ∃ log, deliver on log d₀ = (d,true) ∧ T = o.after (log.flatMap flat)

structure Inv (c : Config σ) : Prop where
  wf : Wf B c.parser
  mark_le : c.mark ≤ c.i
  i_le : c.i ≤ buf.length
  delivers : Delivers on d₀ T c.data (ahead buf B c)

/-- The result is that of the reading, or the callbacks were told a part of it and the
last of them refused. -/
def Answers : Result σ → Prop
  | .fault => False
  | .returned n p d => ∃ log, log.flatMap flat <+: T.tokens ∧
    (deliver on log d₀ = (d,false) ∧ n < buf.length ∨
      deliver on log d₀ = (d,true) ∧ log.flatMap flat = T.tokens ∧
        n+T.rest.length = buf.length ∧ ∀ r ∈ T.last, Wf B p ∧ view p [] = resume r)

variable {on buf B d₀ T} {c : Config σ} {o : Report}

theorem stop_answers (hi : c.i < buf.length)
    (hd : Delivers on d₀ T c.data ⟨[],buf.drop c.i,none⟩) :
    Turn.All (Inv on buf B d₀ T) (Answers on buf B d₀ T) c.stop := by
  obtain ⟨log,hlog,rfl⟩ := hd
  have hrest : (buf.drop c.i).length = buf.length-c.i := List.length_drop
  refine ⟨log,by simp [Report.after],Or.inr ⟨hlog,by simp [Report.after],?_,?_⟩⟩
  · simp only [after_rest, hrest]
    omega
  · exact fun r hr => absurd hr (Option.not_mem_none r)

theorem call_delivers {k : Config σ → Turn σ} (e : Event) (hi : c.i < buf.length)
    (hd : Delivers on d₀ T c.data (o.after (flat e)))
    (hk : ∀ d, Delivers on d₀ T d o →
      Turn.All (Inv on buf B d₀ T) (Answers on buf B d₀ T) (k { c with data := d })) :
    Turn.All (Inv on buf B d₀ T) (Answers on buf B d₀ T) (c.call on e k) := by
  obtain ⟨log,hlog,hT⟩ := hd
  have hT' : T = o.after ((log ++ [e]).flatMap flat) := by
    rw [hT, after_after, List.flatMap_append, List.flatMap_singleton]
  apply all_call
  · intro ht
    exact hk _ ⟨log ++ [e],(deliver_snoc e hlog).trans (Prod.ext rfl ht),hT'⟩
  · intro hf
    refine ⟨log ++ [e],?_,Or.inl ⟨(deliver_snoc e hlog).trans (Prod.ext rfl hf),hi⟩⟩
    rw [hT']
    exact List.prefix_append _ _

theorem emit_delivers {k : Config σ → Turn σ} (kind : Bytes → Event) (j : ℕ)
    (hm : c.mark ≤ j) (hj : j ≤ buf.length) (hi : c.i < buf.length)
    (hd : Delivers on d₀ T c.data (o.after (flat (kind ((buf.take j).drop c.mark)))))
    (hk : ∀ d, Delivers on d₀ T d o →
      Turn.All (Inv on buf B d₀ T) (Answers on buf B d₀ T) (k { c with data := d })) :
    Turn.All (Inv on buf B d₀ T) (Answers on buf B d₀ T) (c.emit on buf kind j k) :=
  all_emit kind j hm hj (call_delivers _ hi hd hk)

theorem advance_plain {r : Reading} (hwf : Wf B c.parser) (hm : c.mark ≤ c.i)
    (hi : c.i < buf.length) (hr : ∀ bs, view c.parser bs = r) (hu : unfinished r = [])
    (hs : decide (c.parser.state = .sPartData) = false)
    (hd : Delivers on d₀ T c.data (report B r (buf.drop (c.i+1)))) :
    Turn.All (Inv on buf B d₀ T) (Answers on buf B d₀ T) c.advance := by
  refine ⟨hwf,Nat.le_succ_of_le hm,hi,?_⟩
  rw [ahead, pending, hr, if_neg (of_decide_eq_false hs), after_nil]
  split
  next => exact hd
  next hlen =>
    rw [List.drop_eq_nil_of_le (Nat.le_of_not_lt hlen), report, hu] at hd
    exact hd

variable {ch : UInt8}

theorem drop_eq_cons (hch : buf[c.i]? = some ch) : buf.drop c.i = ch :: buf.drop (c.i+1) := by
  obtain ⟨hlt,rfl⟩ := List.getElem?_eq_some_iff.mp hch
  exact List.drop_eq_getElem_cons hlt

theorem read_succ (hm : c.mark ≤ c.i) (hch : buf[c.i]? = some ch) :
    (buf.take (c.i+1)).drop c.mark = read buf c ++ [ch] := by
  obtain ⟨hlt,rfl⟩ := List.getElem?_eq_some_iff.mp hch
  rw [List.take_succ_eq_append_getElem hlt, List.drop_append_of_le_length, read]
  rw [List.length_take_of_le (Nat.le_of_lt hlt)]
  exact hm

theorem onward_answers {kind : Bytes → Event} (hwf : Wf B c.parser) (hm : c.mark ≤ c.i)
    (hch : buf[c.i]? = some ch)
    (htell : (if c.parser.state = .sPartData then (read buf c ++ [ch]).map Token.byte else []) ++
      unfinished (view c.parser (read buf c ++ [ch])) = flat (kind (read buf c ++ [ch])))
    (hd : Delivers on d₀ T c.data
      ((report B (view c.parser (read buf c ++ [ch])) (buf.drop (c.i+1))).after
        (if c.parser.state = .sPartData then (read buf c ++ [ch]).map Token.byte else []))) :
    Turn.All (Inv on buf B d₀ T) (Answers on buf B d₀ T)
      (if isLast buf c then c.emit on buf kind (c.i+1) Config.advance else c.advance) := by
  have hi := (List.getElem?_eq_some_iff.mp hch).1
  have hsucc := read_succ hm hch
  have hm' := Nat.le_succ_of_le hm
  rw [← hsucc] at htell hd
  split
  next hlast =>
    have hlen : c.i+1 = buf.length := of_decide_eq_true hlast
    have hover : ¬ c.i+1 < buf.length := Nat.not_lt.mpr (Nat.le_of_eq hlen.symm)
    rw [List.drop_eq_nil_of_le (Nat.le_of_eq hlen.symm), report, Report.after, htell] at hd
    refine emit_delivers (o := ⟨[],[],some _⟩) _ _ hm' hi hi (by simpa [Report.after] using hd) ?_
    intro d hd
    refine ⟨hwf,hm',hi,?_⟩
    rw [ahead, if_neg hover]
    exact hd
  next hlast =>
    have hlen : c.i+1 < buf.length := Nat.lt_of_le_of_ne hi fun h => hlast (decide_eq_true h)
    refine ⟨hwf,hm',hi,?_⟩
    rw [ahead, if_pos hlen]
    exact hd

theorem headerField_answers (hs : c.parser.state = .sHeaderField) (hwf : Wf B c.parser)
    (hm : c.mark ≤ c.i) (hch : buf[c.i]? = some ch)
    (hd : Delivers on d₀ T c.data (report B (.name (read buf c)) (buf.drop c.i))) :
    Turn.All (Inv on buf B d₀ T) (Answers on buf B d₀ T) (headerField on buf c ch) := by
  have hi := (List.getElem?_eq_some_iff.mp hch).1
  have hdrop := drop_eq_cons hch
  have hsucc := read_succ hm hch
  rw [headerField]
  split
  next hcr =>
    have hfeed : feed B (.name (read buf c)) ch = some (.blank,[]) := by
      rw [feed, inName, if_pos hcr]
    rw [hdrop, report_feed _ hfeed] at hd
    exact advance_plain (hwf.plain rfl rfl id) hm hi (fun _ => rfl) rfl rfl hd
  next hcr =>
    split
    next hcolon =>
      have hfeed : feed B (.name (read buf c)) ch = some (.gap,[.field (read buf c)]) := by
        rw [feed, inName, if_neg hcr, if_pos hcolon]
      rw [hdrop, report_feed _ hfeed] at hd
      refine emit_delivers _ _ hm (Nat.le_of_lt hi) hi hd fun d hd => ?_
      exact advance_plain (hwf.plain rfl rfl id) hm hi (fun _ => rfl) rfl rfl hd
    next hcolon =>
      split
      next hname =>
        have hfeed : feed B (.name (read buf c)) ch = none := by
          rw [feed, inName, if_neg hcr, if_neg hcolon, if_neg hname]
        rw [hdrop, report_reject _ hfeed, ← hdrop] at hd
        exact stop_answers hi hd
      next hname =>
        have hfeed : feed B (.name (read buf c)) ch = some (.name (read buf c ++ [ch]),[]) := by
          rw [feed, inName, if_neg hcr, if_neg hcolon, if_pos (not_not.mp hname)]
        rw [hdrop, report_feed _ hfeed, after_nil] at hd
        refine onward_answers hwf hm hch ?_ ?_
        · rw [view, hs, if_neg (by decide), List.nil_append, unfinished,
            if_neg (List.append_ne_nil_of_right_ne_nil _ (List.cons_ne_nil _ _))]
          rfl
        · rw [view, hs, if_neg (by decide)]
          exact hd

theorem headerValue_answers (hs : c.parser.state = .sHeaderValue) (hwf : Wf B c.parser)
    (hm : c.mark ≤ c.i) (hch : buf[c.i]? = some ch)
    (hd : Delivers on d₀ T c.data (report B (.value (read buf c)) (buf.drop c.i))) :
    Turn.All (Inv on buf B d₀ T) (Answers on buf B d₀ T) (headerValue on buf c ch) := by
  have hi := (List.getElem?_eq_some_iff.mp hch).1
  have hdrop := drop_eq_cons hch
  rw [headerValue]
  split
  next hcr =>
    have hfeed : feed B (.value (read buf c)) ch = some (.lineEnd,[.value (read buf c)]) := by
      rw [feed, inValue, if_pos hcr]
    rw [hdrop, report_feed _ hfeed] at hd
    refine emit_delivers _ _ hm (Nat.le_of_lt hi) hi hd fun d hd => ?_
    exact advance_plain (hwf.plain rfl rfl id) hm hi (fun _ => rfl) rfl rfl hd
  next hcr =>
    have hfeed : feed B (.value (read buf c)) ch = some (.value (read buf c ++ [ch]),[]) := by
      rw [feed, inValue, if_neg hcr]
    rw [hdrop, report_feed _ hfeed, after_nil] at hd
    refine onward_answers hwf hm hch ?_ ?_
    · rw [view, hs, if_neg (by decide), List.nil_append, unfinished,
        if_neg (List.append_ne_nil_of_right_ne_nil _ (List.cons_ne_nil _ _))]
      rfl
    · rw [view, hs, if_neg (by decide)]
      exact hd

theorem partData_answers (hs : c.parser.state = .sPartData) (hwf : Wf B c.parser)
    (hm : c.mark ≤ c.i) (hch : buf[c.i]? = some ch)
    (hd : Delivers on d₀ T c.data
      ((report B .content (buf.drop c.i)).after ((read buf c).map .byte))) :
    Turn.All (Inv on buf B d₀ T) (Answers on buf B d₀ T) (partData on buf c ch) := by
  have hi := (List.getElem?_eq_some_iff.mp hch).1
  have hdrop := drop_eq_cons hch
  rw [partData]
  split
  next hcr =>
    have hfeed : feed B .content ch = some (.held 1,[]) := by
      rw [feed, inContent, if_pos hcr]
    rw [hdrop, report_feed _ hfeed, after_nil] at hd
    refine emit_delivers _ _ hm (Nat.le_of_lt hi) hi hd fun d hd => ?_
    have hroom : 0 < c.parser.lookbehind.length := by
      rw [hwf.room]
      omega
    have htake := take_set_snoc c.parser.lookbehind [] cr 0 hroom rfl
    refine all_store 0 cr hroom (advance_plain ?_ (Nat.le_refl _) hi (fun _ => rfl) rfl rfl hd)
    exact hwf.atAlmost rfl List.length_set rfl htake
  next hcr =>
    have hfeed : feed B .content ch = some (.content,[.byte ch]) := by
      rw [feed, inContent, if_neg hcr]
    rw [hdrop, report_feed _ hfeed, after_after] at hd
    refine onward_answers hwf hm hch ?_ ?_
    · rw [view, hs, if_pos rfl]
      exact List.append_nil _
    · rw [view, hs, if_pos rfl, List.map_append]
      exact hd

theorem startBoundary_answers (hs : c.parser.state = .sStartBoundary) (hwf : Wf B c.parser)
    (hm : c.mark ≤ c.i) (hch : buf[c.i]? = some ch)
    (hd : Delivers on d₀ T c.data (report B (.boundary c.parser.index) (buf.drop c.i))) :
    Turn.All (Inv on buf B d₀ T) (Answers on buf B d₀ T) (startBoundary on c ch) := by
  have hi := (List.getElem?_eq_some_iff.mp hch).1
  have hdrop := drop_eq_cons hch
  have hb := hwf.boundary
  have hlen : (opening B).length = B.length+2 := by simp [opening]
  have hle := hwf.opening hs
  have hstop : ∀ x, (opening B)[c.parser.index]? = some x → ch ≠ x →
      Turn.All (Inv on buf B d₀ T) (Answers on buf B d₀ T) c.stop := by
    intro x hx hne
    have hfeed : feed B (.boundary c.parser.index) ch = none := by
      rw [feed, if_neg]
      intro h
      exact hne (Option.some.inj (h.symm.trans hx))
    rw [hdrop, report_reject _ hfeed, ← hdrop] at hd
    exact stop_answers hi hd
  have hgo : ∀ x, (opening B)[c.parser.index]? = some x → ch = x →
      c.parser.index+1 ≤ B.length+1 →
      Turn.All (Inv on buf B d₀ T) (Answers on buf B d₀ T)
        (c.setIndex (c.parser.index+1)).advance := by
    intro x hx heq hlt
    have hfeed : feed B (.boundary c.parser.index) ch =
        some (.boundary (c.parser.index+1),[]) := by
      rw [feed, if_pos (heq ▸ hx), if_neg (by omega)]
    rw [hdrop, report_feed _ hfeed, after_nil] at hd
    refine advance_plain (hwf.atOpening rfl rfl hs hlt) hm hi ?_ rfl ?_ hd
    · intro bs
      simp only [view, Config.setIndex, hs]
    · rw [Config.setIndex, hs]
      rfl
  rw [startBoundary, hb]
  split
  next hidx =>
    have hx : (opening B)[c.parser.index]? = some cr := by simp [opening, hidx]
    split
    next hne => exact hstop cr hx hne
    next heq => exact hgo cr hx (not_not.mp heq) (by omega)
  next hidx =>
    split
    next hidx' =>
      have hx : (opening B)[c.parser.index]? = some lf := by simp [opening, hidx']
      split
      next hne => exact hstop lf hx hne
      next heq =>
        have hfeed : feed B (.boundary c.parser.index) ch = some (.line,[.partBegin]) := by
          rw [feed, if_pos (not_not.mp heq ▸ hx), if_pos (by omega)]
        rw [hdrop, report_feed _ hfeed] at hd
        refine call_delivers .partDataBegin hi hd fun d hd => ?_
        exact advance_plain (hwf.plain rfl rfl id) hm hi (fun _ => rfl) rfl rfl hd
    next hidx' =>
      have hlt : c.parser.index < B.length := by omega
      have hx : c.parser.boundaryAt c.parser.index = some B[c.parser.index] := by
        rw [Parser.boundaryAt, hb, List.getElem?_append_left hlt, List.getElem?_eq_getElem hlt]
      have hx' : (opening B)[c.parser.index]? = some B[c.parser.index] := by
        rw [opening, List.getElem?_append_left hlt, List.getElem?_eq_getElem hlt]
      rw [hx]
      dsimp only
      split
      next hne => exact hstop _ hx' hne
      next heq => exact hgo _ hx' (not_not.mp heq) (by omega)

theorem mismatch_answers (n : ℕ) (hwf : Wf B c.parser) (hch : buf[c.i]? = some ch)
    (hn : n ≤ (delimiter B).length) (hne : (delimiter B)[n]? ≠ some ch)
    (hl : c.parser.lookbehind.take n = ((delimiter B).take n).map some)
    (hd : Delivers on d₀ T c.data (report B (.held n) (buf.drop c.i))) :
    Turn.All (Inv on buf B d₀ T) (Answers on buf B d₀ T)
      (c.emitLookbehind on n fun c => (c.goto .sPartData).again) := by
  have hi := (List.getElem?_eq_some_iff.mp hch).1
  have hdrop := drop_eq_cons hch
  rw [hdrop, report_held _ hne, ← hdrop] at hd
  refine all_emitLookbehind n _ (List.length_take_of_le hn) hl ?_
  refine call_delivers _ hi hd fun d hd => ?_
  refine ⟨hwf.plain rfl rfl id,Nat.le_refl _,Nat.le_of_lt hi,?_⟩
  have hread : ∀ c' : Config σ, c'.mark = c'.i → read buf c' = [] := by
    intro c' hmark
    rw [read, hmark]
    exact List.drop_eq_nil_of_le (List.length_take_le _ _)
  rw [ahead, if_pos (by exact hi), pending, hread _ rfl]
  simpa [view, Config.goto] using hd

theorem partDataBoundary_answers (hs : c.parser.state = .sPartDataBoundary)
    (hwf : Wf B c.parser) (hm : c.mark ≤ c.i) (hch : buf[c.i]? = some ch)
    (hd : Delivers on d₀ T c.data (report B (.held (2+c.parser.index)) (buf.drop c.i))) :
    Turn.All (Inv on buf B d₀ T) (Answers on buf B d₀ T) (partDataBoundary on c ch) := by
  have hi := (List.getElem?_eq_some_iff.mp hch).1
  have hdrop := drop_eq_cons hch
  have hb := hwf.boundary
  obtain ⟨hlt,hheld⟩ := hwf.held hs
  have hx : c.parser.boundaryAt c.parser.index = some B[c.parser.index] := by
    rw [Parser.boundaryAt, hb, List.getElem?_append_left hlt, List.getElem?_eq_getElem hlt]
  have hx' : (delimiter B)[2+c.parser.index]? = some B[c.parser.index] := by
    rw [Nat.add_comm, delimiter, List.getElem?_cons_succ, List.getElem?_cons_succ,
      List.getElem?_eq_getElem hlt]
  have hlen : (delimiter B).length = B.length+2 := rfl
  rw [partDataBoundary, hx]
  dsimp only
  split
  next hne =>
    refine mismatch_answers _ hwf hch (by omega) ?_ hheld hd
    rw [hx']
    exact fun h => hne (Option.some.inj h)
  next heq =>
    have heq := not_not.mp heq
    have hroom : 2+c.parser.index < c.parser.lookbehind.length := by
      rw [hwf.room]
      omega
    refine all_store _ ch hroom ?_
    change Turn.All _ _ (if c.parser.index+1 = c.parser.multipartBoundary.length then _ else _)
    split
    next hfull =>
      rw [hb] at hfull
      have hfeed : feed B (.held (2+c.parser.index)) ch = some (.ended,[.partEnd]) := by
        rw [feed, if_pos (heq ▸ hx'), if_pos (by omega)]
      rw [hdrop, report_feed _ hfeed] at hd
      refine call_delivers .partDataEnd hi hd fun d hd => ?_
      exact advance_plain (hwf.plain rfl List.length_set id) hm hi (fun _ => rfl) rfl rfl hd
    next hfull =>
      rw [hb] at hfull
      have hfeed : feed B (.held (2+c.parser.index)) ch =
          some (.held (2+(c.parser.index+1)),[]) := by
        rw [feed, if_pos (heq ▸ hx'), if_neg (by omega)]
        rfl
      rw [hdrop, report_feed _ hfeed, after_nil] at hd
      have hsnoc := take_set_snoc _ _ ch _ hroom hheld
      have htake : (delimiter B).take (2+c.parser.index+1) =
          (delimiter B).take (2+c.parser.index) ++ [ch] := by
        rw [List.take_add_one, hx', heq]
        rfl
      have hidx := Nat.lt_of_le_of_ne hlt hfull
      refine advance_plain (hwf.atBoundary rfl List.length_set hs hidx ?_) hm hi ?_ rfl ?_ hd
      · exact hsnoc.trans (congrArg (List.map some) htake.symm)
      · intro bs
        simp only [view, Config.setIndex, hs]
      · simp only [Config.setIndex, hs]
        rfl

theorem byte_answers {r r' : Reading} {ts : List Token} (hch : buf[c.i]? = some ch)
    (hd : Delivers on d₀ T c.data (report B r (buf.drop c.i)))
    (hfeed : feed B r ch = some (r',ts)) :
    Delivers on d₀ T c.data ((report B r' (buf.drop (c.i+1))).after ts) := by
  rw [drop_eq_cons hch, report_feed _ hfeed] at hd
  exact hd

theorem reject_answers {r : Reading} (hch : buf[c.i]? = some ch)
    (hd : Delivers on d₀ T c.data (report B r (buf.drop c.i))) (hfeed : feed B r ch = none) :
    Turn.All (Inv on buf B d₀ T) (Answers on buf B d₀ T) c.stop := by
  rw [drop_eq_cons hch, report_reject _ hfeed, ← drop_eq_cons hch] at hd
  exact stop_answers (List.getElem?_eq_some_iff.mp hch).1 hd

theorem onByte_answers (hc : Inv on buf B d₀ T c) (hch : buf[c.i]? = some ch) :
    Turn.All (Inv on buf B d₀ T) (Answers on buf B d₀ T) (onByte on buf c ch) := by
  obtain ⟨hwf,hm,-,hd⟩ := hc
  have hi := (List.getElem?_eq_some_iff.mp hch).1
  have hself : ∀ p d i, read buf (⟨p,d,i,i⟩ : Config σ) = [] := fun _ _ _ =>
    List.drop_eq_nil_of_le (List.length_take_le _ _)
  rw [ahead, if_pos hi, pending] at hd
  have hplain : ∀ r, c.parser.state ≠ .sPartData → view c.parser (read buf c) = r →
      Delivers on d₀ T c.data (report B r (buf.drop c.i)) := by
    intro r hs hr
    rw [if_neg hs, hr, after_nil] at hd
    exact hd
  rw [onByte]
  split
  next hs =>
    have hd := hplain (.boundary 0) (by rw [hs]; decide) (by rw [view, hs])
    exact startBoundary_answers rfl (hwf.atOpening rfl rfl rfl (Nat.zero_le _)) hm hch hd
  next hs =>
    have hd := hplain (.boundary c.parser.index) (by rw [hs]; decide) (by rw [view, hs])
    exact startBoundary_answers hs hwf hm hch hd
  next hs =>
    have hd := hplain .line (by rw [hs]; decide) (by rw [view, hs])
    refine headerField_answers rfl (hwf.plain rfl rfl id) (Nat.le_refl _) hch ?_
    have hline : report B .line (buf.drop c.i) = report B (.name []) (buf.drop c.i) := by
      rw [drop_eq_cons hch]
      rfl
    rw [Config.goto, hself]
    exact hline ▸ hd
  next hs =>
    have hd := hplain (.name (read buf c)) (by rw [hs]; decide) (by rw [view, hs])
    exact headerField_answers hs hwf hm hch hd
  next hs =>
    have hd := hplain .blank (by rw [hs]; decide) (by rw [view, hs])
    split
    next hne => exact reject_answers hch hd (if_neg hne)
    next heq =>
      have hd := byte_answers hch hd (if_pos (not_not.mp heq))
      exact advance_plain (hwf.plain rfl rfl id) hm hi (fun _ => rfl) rfl rfl hd
  next hs =>
    have hd := hplain .gap (by rw [hs]; decide) (by rw [view, hs])
    split
    next hsp =>
      have hd := byte_answers hch hd (if_pos hsp)
      refine advance_plain hwf hm hi (fun _ => ?_) rfl (by rw [hs]; rfl) hd
      rw [view, hs]
    next hsp =>
      refine headerValue_answers rfl (hwf.plain rfl rfl id) (Nat.le_refl _) hch ?_
      have hgap : report B .gap (buf.drop c.i) = report B (.value []) (buf.drop c.i) := by
        rw [drop_eq_cons hch, report, report, feed, if_neg hsp]
        rfl
      rw [Config.goto, hself]
      exact hgap ▸ hd
  next hs =>
    have hd := hplain (.value (read buf c)) (by rw [hs]; decide) (by rw [view, hs])
    exact headerValue_answers hs hwf hm hch hd
  next hs =>
    have hd := hplain .lineEnd (by rw [hs]; decide) (by rw [view, hs])
    split
    next hne => exact reject_answers hch hd (if_neg hne)
    next heq =>
      have hd := byte_answers hch hd (if_pos (not_not.mp heq))
      exact advance_plain (hwf.plain rfl rfl id) hm hi (fun _ => rfl) rfl rfl hd
  next hs =>
    have hd := hplain .body (by rw [hs]; decide) (by rw [view, hs])
    have hbody : report B .body (buf.drop c.i) =
        (report B .content (buf.drop c.i)).after [.headersDone] := by
      rw [drop_eq_cons hch]
      exact report_body _ _
    rw [hbody] at hd
    refine call_delivers .headersComplete hi hd fun d hd => ?_
    refine partData_answers rfl (hwf.plain rfl rfl id) (Nat.le_refl _) hch ?_
    rw [Config.goto, hself]
    exact hd
  next hs =>
    rw [if_pos hs, view, hs] at hd
    exact partData_answers hs hwf hm hch hd
  next hs =>
    have hd := hplain (.held 1) (by rw [hs]; decide) (by rw [view, hs])
    have hx : (delimiter B)[1]? = some lf := rfl
    split
    next heq =>
      have hne1 : ¬ 1+1 = (delimiter B).length := by
        have := hwf.nonempty
        simp only [delimiter, List.length_cons]
        omega
      have hfeed : feed B (.held 1) ch = some (.held 2,[]) := by
        rw [feed, if_pos (heq ▸ hx), if_neg hne1]
      have hd := byte_answers hch hd hfeed
      have hroom : 1 < c.parser.lookbehind.length := by
        rw [hwf.room]
        omega
      refine all_store 1 lf hroom ?_
      have htake := take_set_snoc c.parser.lookbehind [cr] lf 1 hroom (hwf.almost hs)
      have hat := hwf.atBoundary (q := { c.parser with
        state := .sPartDataBoundary
        lookbehind := c.parser.lookbehind.set 1 (some lf)
        index := 0 }) rfl List.length_set rfl hwf.nonempty htake
      exact advance_plain hat hm hi (fun _ => rfl) rfl rfl hd
    next hne =>
      refine mismatch_answers 1 hwf hch (Nat.succ_le_succ (Nat.zero_le _)) ?_ (hwf.almost hs) hd
      rw [hx]
      exact fun h => hne (Option.some.inj h).symm
  next hs =>
    have hd := hplain (.held (2+c.parser.index)) (by rw [hs]; decide) (by rw [view, hs])
    exact partDataBoundary_answers hs hwf hm hch hd
  next hs =>
    have hd := hplain .ended (by rw [hs]; decide) (by rw [view, hs])
    split
    next heq =>
      have hd := byte_answers hch hd (if_pos heq)
      exact advance_plain (hwf.plain rfl rfl id) hm hi (fun _ => rfl) rfl rfl hd
    next hne =>
      split
      next heq =>
        have hfeed : feed B .ended ch = some (.next,[]) := by
          rw [feed, if_neg hne, if_pos heq]
        have hd := byte_answers hch hd hfeed
        exact advance_plain (hwf.plain rfl rfl id) hm hi (fun _ => rfl) rfl rfl hd
      next hne' =>
        refine reject_answers hch hd ?_
        rw [feed, if_neg hne, if_neg hne']
  next hs =>
    have hd := hplain .hyphen (by rw [hs]; decide) (by rw [view, hs])
    split
    next heq =>
      have hd := byte_answers hch hd (if_pos heq)
      refine call_delivers .bodyEnd hi hd fun d hd => ?_
      exact advance_plain (hwf.plain rfl rfl id) hm hi (fun _ => rfl) rfl rfl hd
    next hne => exact reject_answers hch hd (if_neg hne)
  next hs =>
    have hd := hplain .next (by rw [hs]; decide) (by rw [view, hs])
    split
    next heq =>
      have hd := byte_answers hch hd (if_pos heq)
      refine call_delivers (c := c.goto .sHeaderFieldStart) .partDataBegin hi hd fun d hd => ?_
      exact advance_plain (hwf.plain rfl rfl id) hm hi (fun _ => rfl) rfl rfl hd
    next hne => exact reject_answers hch hd (if_neg hne)
  next hs =>
    have hd := hplain .done (by rw [hs]; decide) (by rw [view, hs])
    have hd := byte_answers hch hd rfl
    refine advance_plain hwf hm hi (fun _ => ?_) rfl (by rw [hs]; rfl) hd
    rw [view, hs]
  next hs => exact absurd hs hwf.known

end Turns

theorem execute_answers (on : Settings σ) (B : Bytes) (p : Parser) (d : σ) (buf : Bytes)
    (hp : Wf B p) : ∃ r, multipartParserExecute on p d buf = some r ∧
      Answers on buf B d (report B (view p []) buf) r := by
  refine runs_rule turn_lt (Inv on buf B d (report B (view p []) buf)) _ ?_ ?_ _ ?_
  · intro c c' hc h
    rw [turn] at h
    split at h
    next => cases h
    next ch hch =>
      have hall := onByte_answers hc hch
      rw [h] at hall
      exact hall
  · intro c r hc h
    rw [turn] at h
    split at h
    next hch =>
      cases h
      have hi : ¬ c.i < buf.length := Nat.not_lt.mpr (List.getElem?_eq_none_iff.mp hch)
      obtain ⟨hwf,-,-,log,hlog,hT⟩ := hc
      rw [ahead, if_neg hi] at hT
      refine ⟨log,?_,Or.inr ⟨hlog,?_,?_,?_⟩⟩
      · rw [hT]
        exact List.prefix_append _ _
      · rw [hT]
        exact (List.append_nil _).symm
      · rw [hT, after_rest]
        rfl
      · intro r hr
        rw [hT, after_last] at hr
        obtain rfl := Option.some.inj hr
        exact ⟨hwf,(resume_view _ _).symm⟩
    next ch hch =>
      have hall := onByte_answers hc hch
      rw [h] at hall
      exact hall
  · refine ⟨hp,Nat.le_refl _,Nat.zero_le _,[],rfl,?_⟩
    have hread : read buf (⟨p,d,0,0⟩ : Config σ) = [] := rfl
    rw [ahead, pending, hread]
    split
    next => simp
    next hlen =>
      obtain rfl : buf = [] := List.eq_nil_of_length_eq_zero (Nat.eq_zero_of_not_pos hlen)
      have hu : unfinished (view p []) = [] := by
        rw [view]
        cases p.state <;> rfl
      rw [report, hu]
      rfl

def Result.plus (n : ℕ) : Result σ → Result σ
  | .fault => .fault
  | .returned m p d => .returned (n+m) p d

/-- A body that comes in several buffers; a call that does not take its whole buffer is the last.
The number returned is that of all bytes taken. -/
def executeAll (on : Settings σ) : Parser → σ → List Bytes → Option (Result σ)
  | p, d, [] => some (.returned 0 p d)
  | p, d, buf :: bufs =>
    match multipartParserExecute on p d buf with
    | some (.returned n p' d') =>
      if n = buf.length then (executeAll on p' d' bufs).map (Result.plus n)
      else some (.returned n p' d')
    | r => r

/-- What is read of several buffers one after the other. -/
def readAll (B : Bytes) : Reading → List Bytes → Report
  | r, [] => ⟨[],[],some r⟩
  | r, buf :: bufs =>
    match (report B r buf).last with
    | none => ⟨(report B r buf).tokens,(report B r buf).rest ++ bufs.flatten,none⟩
    | some r' => (readAll B (resume r') bufs).after (report B r buf).tokens

theorem rest_eq_nil_iff (B : Bytes) (r : Reading) (bs : Bytes) :
    (report B r bs).rest = [] ↔ ∃ r', (report B r bs).last = some r' := by
  induction bs generalizing r with
  | nil => exact ⟨fun _ => ⟨r,rfl⟩,fun _ => rfl⟩
  | cons b bs ih =>
    cases h : feed B r b with
    | none =>
      rw [report_reject bs h]
      simp
    | some rts =>
      rw [report_feed bs h]
      exact ih rts.1

theorem Answers.behind {on : Settings σ} {B buf bs : Bytes} {d d' : σ} {T : Report}
    {ts : List Token} {log : List Event} {r : Result σ} (hlog : deliver on log d = (d',true))
    (htokens : log.flatMap flat = ts) (ha : Answers on bs B d' T r) :
    Answers on (buf ++ bs) B d (T.after ts) (Result.plus buf.length r) := by
  cases r with
  | fault => exact ha.elim
  | returned m q d₂ =>
    obtain ⟨log₂,hpre,hor⟩ := ha
    have hflat : (log ++ log₂).flatMap flat = ts ++ log₂.flatMap flat := by
      rw [List.flatMap_append, htokens]
    have hlen : (buf ++ bs).length = buf.length+bs.length := List.length_append
    refine ⟨log ++ log₂,?_,?_⟩
    · rw [hflat]
      exact (List.prefix_append_right_inj _).mpr hpre
    · rw [deliver_append hlog, hflat, hlen, after_rest]
      rcases hor with ⟨hd,hm⟩ | ⟨hd,htok,hm,hlast⟩
      · exact Or.inl ⟨hd,by omega⟩
      · exact Or.inr ⟨hd,congrArg _ htok,by omega,hlast⟩

/-- The answer to several buffers is the one to a single buffer of all their bytes, but for what
the reading starts anew at each cut. -/
theorem executeAll_answers (on : Settings σ) (B : Bytes) (p : Parser) (d : σ) (bufs : List Bytes)
    (hp : Wf B p) : ∃ r, executeAll on p d bufs = some r ∧
      Answers on bufs.flatten B d (readAll B (view p []) bufs) r := by
  induction bufs generalizing p d with
  | nil =>
    refine ⟨_,rfl,[],List.nil_prefix,Or.inr ⟨rfl,rfl,rfl,fun r hr => ?_⟩⟩
    obtain rfl := Option.some.inj hr
    exact ⟨hp,(resume_view p []).symm⟩
  | cons buf bufs ih =>
    obtain ⟨r,hr,ha⟩ := execute_answers on B p d buf hp
    have hlen : (buf :: bufs).flatten.length = buf.length+bufs.flatten.length := by
      rw [List.flatten_cons, List.length_append]
    rw [executeAll, hr, readAll]
    cases r with
    | fault => exact ha.elim
    | returned n p' d' =>
      obtain ⟨log,hpre,⟨hlog,hn⟩ | ⟨hlog,htokens,hn,hlast⟩⟩ := ha
      · refine ⟨_,if_neg (Nat.ne_of_lt hn),log,?_,Or.inl ⟨hlog,by omega⟩⟩
        cases (report B (view p []) buf).last with
        | none => exact hpre
        | some r' => exact hpre.trans (List.prefix_append _ _)
      · dsimp only
        cases hl : (report B (view p []) buf).last with
        | none =>
          have hrest : (report B (view p []) buf).rest ≠ [] := by
            rw [Ne, rest_eq_nil_iff, hl]
            rintro ⟨r',hr'⟩
            cases hr'
          have hpos := List.length_pos_iff.mpr hrest
          refine ⟨_,if_neg (by omega),log,hpre,Or.inr ⟨hlog,htokens,?_,?_⟩⟩
          · rw [hlen, ← hn, List.length_append, Nat.add_assoc]
          · exact fun r' hr' => absurd hr' (Option.not_mem_none r')
        | some r' =>
          have hrest := (rest_eq_nil_iff B (view p []) buf).mpr ⟨r',hl⟩
          rw [hrest, List.length_nil, Nat.add_zero] at hn
          obtain ⟨hwf,hview⟩ := hlast r' hl
          obtain ⟨r₂,he,ha⟩ := ih p' d' hwf
          rw [hview] at ha
          rw [if_pos hn, he, hn]
          exact ⟨_,rfl,ha.behind hlog htokens⟩

/-- Whatever the callbacks do and however the body is cut, no call faults or fails to end. The
callbacks are told what is read, and all of it unless one of them refuses; bytes are left exactly
when a callback refuses or a byte is rejected. -/
theorem executeAll_returns (on : Settings σ) (boundary : Bytes) (d : σ) (bufs : List Bytes)
    (hne : boundary.takeWhile (· ≠ 0) ≠ []) :
    ∃ n p d' ok log, executeAll on (multipartParserInit boundary) d bufs = some (.returned n p d') ∧
      deliver on log d = (d',ok) ∧
      log.flatMap flat <+: (readAll (boundary.takeWhile (· ≠ 0)) (.boundary 0) bufs).tokens ∧
      (ok = true → log.flatMap flat =
          (readAll (boundary.takeWhile (· ≠ 0)) (.boundary 0) bufs).tokens ∧
        n+(readAll (boundary.takeWhile (· ≠ 0)) (.boundary 0) bufs).rest.length =
          bufs.flatten.length) ∧
      (n < bufs.flatten.length ↔
        ok = false ∨ (readAll (boundary.takeWhile (· ≠ 0)) (.boundary 0) bufs).rest ≠ []) := by
  obtain ⟨r,hr,ha⟩ := executeAll_answers on _ _ d bufs (wf_init boundary hne)
  change Answers on bufs.flatten _ d (readAll _ (.boundary 0) bufs) r at ha
  rw [hr]
  generalize readAll (boundary.takeWhile (· ≠ 0)) (.boundary 0) bufs = T at ha ⊢
  cases r with
  | fault => exact ha.elim
  | returned n p d' =>
    obtain ⟨log,hpre,⟨hlog,hn⟩ | ⟨hlog,htokens,hn,-⟩⟩ := ha
    · exact ⟨n,p,d',false,log,rfl,hlog,hpre,fun h => (nomatch h),
        iff_of_true hn (Or.inl rfl)⟩
    · refine ⟨n,p,d',true,log,rfl,hlog,hpre,fun _ => ⟨htokens,hn⟩,?_⟩
      rw [← List.length_pos_iff]
      simp only [Bool.true_eq_false, false_or]
      omega

/-- The second buffer brings a byte that no header name has. -/
theorem executeAll_returns_sample :
    ∃ n p d, executeAll (fun e (log : List Event) => (log ++ [e],true))
      (multipartParserInit [45,45]) [] [[45],[45,13,10,0,97]] = some (.returned n p d) ∧ n < 6 := by
  obtain ⟨n,p,d,_,_,he,-,-,-,hn⟩ := executeAll_returns
    (fun e (log : List Event) => (log ++ [e],true)) [45,45] [] [[45],[45,13,10,0,97]] (by decide)
  exact ⟨n,p,d,he,hn.mpr (Or.inr (by decide))⟩

end WdHttp.MultipartRefinement
