import WdHttp.FirstOccurrence
import WdHttp.MultipartRefinement

/-!
# Multipart bodies

The texts that are read to their end. A part is a list of headers, a line without a
colon that ends them, and a content in which the delimiter does not occur. The line
is empty in what encoders write; the parser takes any name there and forgets it.
-/

set_option autoImplicit false

namespace WdHttp.MultipartGrammar
open WdHttp.PosixFile WdHttp.MultipartParser WdHttp.MultipartReading WdHttp.MultipartRefinement
open WdHttp.FirstOccurrence WdHttp.StrUtil

structure Header where
  name : Bytes
  blanks : ℕ
  value : Bytes
  deriving DecidableEq, Repr

def Header.text (h : Header) : Bytes :=
  h.name ++ colon :: (List.replicate h.blanks space ++ (h.value ++ [cr,lf]))

def Header.tokens (h : Header) : List Token := [.field h.name,.value h.value]

structure Header.Ok (h : Header) : Prop where
  name : ∀ b ∈ h.name, isName b = true
  value : cr ∉ h.value
  start : ∀ b ∈ h.value.head?, b ≠ space

instance (h : Header) : Decidable h.Ok :=
  decidable_of_iff (h.name.all isName = true ∧ cr ∉ h.value ∧ h.value.head? ≠ some space)
    ⟨fun ok => ⟨List.all_eq_true.mp ok.1,ok.2.1,fun _ hb he => ok.2.2 (he ▸ hb)⟩,
      fun ok => ⟨List.all_eq_true.mpr ok.1,ok.2,fun hs => ok.3 space hs rfl⟩⟩

structure Part where
  headers : List Header
  lastLine : Bytes
  content : Bytes
  deriving DecidableEq, Repr

def Part.text (p : Part) : Bytes :=
  p.headers.flatMap Header.text ++ (p.lastLine ++ cr :: lf :: p.content)

def Part.tokens (p : Part) : List Token :=
  p.headers.flatMap Header.tokens ++ .headersDone :: (p.content.map .byte ++ [.partEnd])

structure Part.Ok (B : Bytes) (p : Part) : Prop where
  headers : ∀ h ∈ p.headers, h.Ok
  lastLine : ∀ b ∈ p.lastLine, isName b = true
  content : ¬ delimiter B <:+: p.content

instance (B : Bytes) (p : Part) : Decidable (p.Ok B) :=
  decidable_of_iff ((∀ h ∈ p.headers, h.Ok) ∧ p.lastLine.all isName = true ∧
    ¬ delimiter B <:+: p.content)
    ⟨fun ok => ⟨ok.1,List.all_eq_true.mp ok.2.1,ok.2.2⟩,
      fun ok => ⟨ok.1,List.all_eq_true.mpr ok.2,ok.3⟩⟩

/-- What follows a delimiter. -/
def remainder (B : Bytes) : List Part → Bytes → Bytes
  | [], epilogue => hyphen :: hyphen :: epilogue
  | p :: ps, epilogue => cr :: lf :: (p.text ++ delimiter B ++ remainder B ps epilogue)

def bodyText (B : Bytes) (ps : List Part) (epilogue : Bytes) : Bytes := B ++ remainder B ps epilogue

def bodyTokens (ps : List Part) : List Token :=
  ps.flatMap (fun p => .partBegin :: p.tokens) ++ [.bodyEnd]

section Reading

variable {B : Bytes}

theorem report_names {n : Bytes} (hn : ∀ b ∈ n, isName b = true) (read bs : Bytes) :
    report B (.name read) (n ++ bs) = report B (.name (read ++ n)) bs := by
  induction n generalizing read with
  | nil => rw [List.nil_append, List.append_nil]
  | cons b n ih =>
    have hb := hn b List.mem_cons_self
    have hcr : b ≠ cr := fun h => absurd (h ▸ hb) (by decide)
    have hcolon : b ≠ colon := fun h => absurd (h ▸ hb) (by decide)
    have hfeed : feed B (.name read) b = some (.name (read ++ [b]),[]) := by
      rw [feed, inName, if_neg hcr, if_neg hcolon, if_pos hb]
    rw [List.cons_append, report_feed _ hfeed, after_nil,
      ih (fun a ha => hn a (List.mem_cons_of_mem _ ha)), List.append_assoc, List.singleton_append]

theorem report_values {v : Bytes} (hv : cr ∉ v) (read bs : Bytes) :
    report B (.value read) (v ++ bs) = report B (.value (read ++ v)) bs := by
  induction v generalizing read with
  | nil => rw [List.nil_append, List.append_nil]
  | cons b v ih =>
    obtain ⟨hb,hv⟩ := not_or.mp (List.mem_cons.not.mp hv)
    have hfeed : feed B (.value read) b = some (.value (read ++ [b]),[]) := by
      rw [feed, inValue, if_neg (Ne.symm hb)]
    rw [List.cons_append, report_feed _ hfeed, after_nil, ih hv, List.append_assoc,
      List.singleton_append]

theorem report_blanks (n : ℕ) (bs : Bytes) :
    report B .gap (List.replicate n space ++ bs) = report B .gap bs := by
  induction n with
  | zero => rfl
  | succ n ih =>
    have hfeed : feed B .gap space = some (.gap,[]) := rfl
    rw [List.replicate_succ, List.cons_append, report_feed _ hfeed, after_nil, ih]

theorem report_line (b : UInt8) (bs : Bytes) :
    report B .line (b :: bs) = report B (.name []) (b :: bs) := by
  rw [report, report]
  rfl

theorem report_gap {b : UInt8} (hb : b ≠ space) (bs : Bytes) :
    report B .gap (b :: bs) = report B (.value []) (b :: bs) := by
  rw [report, report, feed, if_neg hb]
  rfl

theorem report_lineEnd (bs : Bytes) : report B .lineEnd (lf :: bs) = report B .line bs := by
  rw [report_feed bs (show feed B .lineEnd lf = some (.line,[]) from rfl), after_nil]

theorem report_blank (bs : Bytes) : report B .blank (lf :: bs) = report B .body bs := by
  rw [report_feed bs (show feed B .blank lf = some (.body,[]) from rfl), after_nil]

theorem report_header {h : Header} (hh : h.Ok) (bs : Bytes) :
    report B .line (h.text ++ bs) = (report B .line bs).after h.tokens := by
  have hname : report B .line (h.text ++ bs) = report B (.name []) (h.text ++ bs) := by
    cases ht : h.text ++ bs with
    | nil => simp [Header.text] at ht
    | cons b t => exact report_line b t
  have hcolon : feed B (.name h.name) colon = some (.gap,[.field h.name]) := rfl
  have hvalue : ∀ t, report B .gap (h.value ++ cr :: t) =
      report B (.value []) (h.value ++ cr :: t) := by
    intro t
    cases hv : h.value with
    | nil => exact report_gap (by decide) t
    | cons b v => exact report_gap (hh.start b (by rw [hv]; rfl)) _
  have hcr : feed B (.value h.value) cr = some (.lineEnd,[.value h.value]) := rfl
  rw [hname, Header.text, List.append_assoc, report_names hh.name, List.nil_append,
    List.cons_append, report_feed _ hcolon, List.append_assoc, report_blanks, List.append_assoc,
    List.cons_append, List.cons_append, List.nil_append, hvalue, report_values hh.value,
    List.nil_append, report_feed _ hcr, report_lineEnd, after_after]
  rfl

theorem report_headers {hs : List Header} (hok : ∀ h ∈ hs, h.Ok) (bs : Bytes) :
    report B .line (hs.flatMap Header.text ++ bs) =
      (report B .line bs).after (hs.flatMap Header.tokens) := by
  induction hs with
  | nil => rfl
  | cons h hs ih =>
    rw [List.flatMap_cons, List.flatMap_cons, List.append_assoc,
      report_header (hok h List.mem_cons_self),
      ih (fun a ha => hok a (List.mem_cons_of_mem _ ha)), after_after]

theorem report_lastLine {n : Bytes} (hn : ∀ b ∈ n, isName b = true) (bs : Bytes) :
    report B .line (n ++ cr :: lf :: bs) = report B .body bs := by
  have hname : report B .line (n ++ cr :: lf :: bs) =
      report B (.name []) (n ++ cr :: lf :: bs) := by
    cases ht : n ++ cr :: lf :: bs with
    | nil => simp at ht
    | cons b t => exact report_line b t
  have hcr : feed B (.name n) cr = some (.blank,[]) := rfl
  rw [hname, report_names hn, List.nil_append, report_feed _ hcr, after_nil, report_blank]

def holding : ℕ → Reading
  | 0 => .content
  | n+1 => .held (n+1)

theorem delimiter_unlike (hB : cr ∉ B) : cr ∉ lf :: B := by
  rw [List.mem_cons, not_or]
  exact ⟨by decide,hB⟩

/-- The content up to the first delimiter, some bytes of which may be held back already. -/
theorem report_holding (hB : cr ∉ B) (bs : Bytes) :
    ∀ (n : ℕ) (c r : Bytes), n < (delimiter B).length →
      (delimiter B).take n ++ bs = c ++ delimiter B ++ r → ¬ delimiter B <:+: c →
      report B (holding n) bs = (report B .ended r).after (c.map .byte ++ [.partEnd]) := by
  have hx := delimiter_unlike hB
  induction bs with
  | nil =>
    intro n c r hn heq _
    have hlen := congrArg List.length heq
    simp only [List.length_append, List.length_take, List.length_nil] at hlen
    omega
  | cons b bs ih =>
    have hcontent : ∀ c r, b :: bs = c ++ delimiter B ++ r → ¬ delimiter B <:+: c →
        report B .content (b :: bs) = (report B .ended r).after (c.map .byte ++ [.partEnd]) := by
      intro c r heq hc
      by_cases hcr : b = cr
      · have hfeed : feed B .content b = some (.held 1,[]) := by
          rw [feed, inContent, if_pos hcr]
        rw [report_feed _ hfeed, after_nil]
        refine ih 1 c r (by simp [delimiter]) ?_ hc
        rw [← heq, hcr]
        rfl
      · have hfeed : feed B .content b = some (.content,[.byte b]) := by
          rw [feed, inContent, if_neg hcr]
        cases c with
        | nil => exact absurd (List.cons.inj heq).1 hcr
        | cons a c =>
          obtain ⟨rfl,htail⟩ := List.cons.inj heq
          have hfirst := ih 0 c r (by simp [delimiter]) htail fun h => hc (List.infix_cons h)
          rw [report_feed _ hfeed]
          exact (congrArg (·.after [.byte b]) hfirst).trans (after_after _ _ _)
    intro n c r hn heq hc
    cases n with
    | zero => exact hcontent c r heq hc
    | succ n =>
      by_cases hb : (delimiter B)[n+1]? = some b
      · have htake : (delimiter B).take (n+1+1) = (delimiter B).take (n+1) ++ [b] := by
          rw [List.take_add_one, hb]
          rfl
        have heq' : (delimiter B).take (n+1+1) ++ bs = c ++ delimiter B ++ r := by
          rw [htake, List.append_assoc]
          exact heq
        by_cases hfull : n+1+1 = (delimiter B).length
        · have hfeed : feed B (.held (n+1)) b = some (.ended,[.partEnd]) := by
            rw [feed, if_pos hb, if_pos hfull]
          rw [hfull, List.take_length] at heq'
          obtain rfl := nil_of_prefix hx hc ⟨bs,heq'⟩
          obtain rfl := List.append_cancel_left heq'
          exact report_feed _ hfeed
        · have hfeed : feed B (.held (n+1)) b = some (.held (n+2),[]) := by
            rw [feed, if_pos hb, if_neg hfull]
          rw [holding, report_feed _ hfeed, after_nil]
          exact ih (n+2) c r (by omega) heq' hc
      · obtain ⟨c',rfl,heq'⟩ := mismatch hx (Nat.succ_pos n) hb hn heq
        have hc' : ¬ delimiter B <:+: c' := fun h => hc (h.trans (List.suffix_append _ _).isInfix)
        rw [holding, report_held _ hb, hcontent c' r heq' hc', after_after, List.map_append,
          List.append_assoc]
        rfl

theorem holding_last (bs : Bytes) :
    ∀ n, n < (delimiter B).length → ¬ delimiter B <:+: (delimiter B).take n ++ bs →
      ∃ m, (report B (holding n) bs).last = some (holding m) := by
  induction bs with
  | nil =>
    intro n _ _
    exact ⟨n,rfl⟩
  | cons b bs ih =>
    have hcontent : ¬ delimiter B <:+: b :: bs →
        ∃ m, (report B .content (b :: bs)).last = some (holding m) := by
      intro hno
      by_cases hcr : b = cr
      · have hfeed : feed B .content b = some (.held 1,[]) := by
          rw [feed, inContent, if_pos hcr]
        rw [report_feed _ hfeed, after_last]
        refine ih 1 (by simp [delimiter]) ?_
        rw [hcr] at hno
        exact hno
      · have hfeed : feed B .content b = some (.content,[.byte b]) := by
          rw [feed, inContent, if_neg hcr]
        rw [report_feed _ hfeed, after_last]
        exact ih 0 (by simp [delimiter]) fun h => hno (List.infix_cons h)
    intro n hn hno
    cases n with
    | zero => exact hcontent hno
    | succ n =>
      by_cases hb : (delimiter B)[n+1]? = some b
      · have htake : (delimiter B).take (n+1) ++ b :: bs = (delimiter B).take (n+1+1) ++ bs := by
          rw [List.take_add_one (l := delimiter B) (i := n+1), hb, List.append_assoc]
          rfl
        rw [htake] at hno
        have hfull : n+1+1 ≠ (delimiter B).length := by
          intro hfull
          rw [hfull, List.take_length] at hno
          exact hno (List.prefix_append _ _).isInfix
        have hfeed : feed B (.held (n+1)) b = some (.held (n+2),[]) := by
          rw [feed, if_pos hb, if_neg hfull]
        rw [holding, report_feed _ hfeed, after_last]
        exact ih (n+2) (by omega) hno
      · rw [holding, report_held _ hb, after_last]
        exact hcontent fun h => hno (h.trans (List.suffix_append _ _).isInfix)

theorem report_part (hB : cr ∉ B) {p : Part} (hp : p.Ok B) (bs : Bytes) :
    report B .line (p.text ++ delimiter B ++ bs) = (report B .ended bs).after p.tokens := by
  have hcontent := report_holding hB (p.content ++ delimiter B ++ bs) 0 p.content bs
    (by simp [delimiter]) rfl hp.content
  have hbody : ∀ c, report B .body (c ++ delimiter B ++ bs) =
      (report B .content (c ++ delimiter B ++ bs)).after [.headersDone] := by
    intro c
    cases hc : c ++ delimiter B ++ bs with
    | nil => simp [delimiter] at hc
    | cons b t => exact report_body b t
  have htext : p.text ++ delimiter B ++ bs = p.headers.flatMap Header.text ++
      (p.lastLine ++ cr :: lf :: (p.content ++ delimiter B ++ bs)) := by
    simp [Part.text]
  rw [htext, report_headers hp.headers, report_lastLine hp.lastLine, hbody]
  rw [holding] at hcontent
  rw [hcontent, after_after, after_after]
  simp [Part.tokens]

theorem report_next (bs : Bytes) :
    report B .ended (cr :: lf :: bs) = (report B .line bs).after [.partBegin] := by
  have hcr : feed B .ended cr = some (.next,[]) := rfl
  have hlf : feed B .next lf = some (.line,[.partBegin]) := rfl
  rw [report_feed _ hcr, after_nil, report_feed _ hlf]

theorem report_done (bs : Bytes) : report B .done bs = ⟨[],[],some .done⟩ := by
  induction bs with
  | nil => rfl
  | cons b bs ih =>
    have hfeed : feed B .done b = some (.done,[]) := rfl
    rw [report_feed _ hfeed, after_nil, ih]

theorem report_remainder (hB : cr ∉ B) {ps : List Part} (hps : ∀ p ∈ ps, p.Ok B)
    (epilogue : Bytes) :
    report B .ended (remainder B ps epilogue) = ⟨bodyTokens ps,[],some .done⟩ := by
  induction ps with
  | nil =>
    have h1 : feed B .ended hyphen = some (.hyphen,[]) := rfl
    have h2 : feed B .hyphen hyphen = some (.done,[.bodyEnd]) := rfl
    rw [remainder, report_feed _ h1, after_nil, report_feed _ h2, report_done]
    rfl
  | cons p ps ih =>
    have hrest := ih fun q hq => hps q (List.mem_cons_of_mem _ hq)
    rw [remainder, report_next, report_part hB (hps p List.mem_cons_self), hrest, after_after]
    simp [Report.after, bodyTokens]

theorem report_opening (n : ℕ) (hn : n < (opening B).length) (bs : Bytes) :
    report B (.boundary n) ((opening B).drop n ++ bs) = (report B .line bs).after [.partBegin] := by
  obtain ⟨k,hk⟩ : ∃ k, k+1 = (opening B).length-n := ⟨(opening B).length-n-1,by omega⟩
  induction k generalizing n with
  | zero =>
    rw [List.drop_eq_getElem_cons hn, List.drop_eq_nil_of_le (by omega)]
    have hfeed : feed B (.boundary n) (opening B)[n] = some (.line,[.partBegin]) := by
      rw [feed, if_pos (List.getElem?_eq_getElem hn), if_pos (by omega)]
    exact report_feed _ hfeed
  | succ k ih =>
    rw [List.drop_eq_getElem_cons hn, List.cons_append]
    have hfeed : feed B (.boundary n) (opening B)[n] = some (.boundary (n+1),[]) := by
      rw [feed, if_pos (List.getElem?_eq_getElem hn), if_neg (by omega)]
    rw [report_feed _ hfeed, after_nil]
    exact ih (n+1) (by omega) (by omega)

theorem report_bodyText (hB : cr ∉ B) {ps : List Part} (hne : ps ≠ []) (hps : ∀ p ∈ ps, p.Ok B)
    (epilogue : Bytes) :
    report B (.boundary 0) (bodyText B ps epilogue) = ⟨bodyTokens ps,[],some .done⟩ := by
  cases ps with
  | nil => exact absurd rfl hne
  | cons p ps =>
    have hall := report_remainder hB hps epilogue
    have hopen := report_opening (B := B) 0 (by simp [opening])
      (p.text ++ delimiter B ++ remainder B ps epilogue)
    rw [remainder, report_next] at hall
    rw [← hall, ← hopen]
    simp [bodyText, remainder, opening]

theorem content_of_done (hB : cr ∉ B) {bs : Bytes}
    (h : (report B .content bs).last = some .done) :
    ∃ c r, bs = c ++ delimiter B ++ r ∧ ¬ delimiter B <:+: c ∧
      (report B .ended r).last = some .done := by
  have hin : delimiter B <:+: bs := by
    by_contra hno
    obtain ⟨m,hm⟩ := holding_last bs 0 (by simp [delimiter]) hno
    rw [holding, h] at hm
    cases m <;> cases hm
  obtain ⟨c,r,rfl,hc⟩ := exists_first (d := delimiter B) (List.cons_ne_nil _ _) hin
  have hread := report_holding hB (c ++ delimiter B ++ r) 0 c r (by simp [delimiter]) rfl hc
  rw [holding] at hread
  rw [hread, after_last] at h
  exact ⟨c,r,rfl,hc,h⟩

theorem value_of_done {read bs : Bytes} (h : (report B (.value read) bs).last = some .done) :
    ∃ v r, bs = v ++ cr :: lf :: r ∧ cr ∉ v ∧ (report B .line r).last = some .done := by
  induction bs generalizing read with
  | nil => cases h
  | cons b bs ih =>
    by_cases hb : b = cr
    · have hfeed : feed B (.value read) b = some (.lineEnd,[.value read]) := by
        rw [feed, inValue, if_pos hb]
      rw [report_feed _ hfeed, after_last] at h
      cases bs with
      | nil => cases h
      | cons a bs =>
        by_cases ha : a = lf
        · rw [ha, report_lineEnd] at h
          exact ⟨[],bs,by rw [hb, ha]; rfl,List.not_mem_nil,h⟩
        · rw [report_reject _ (show feed B .lineEnd a = none from if_neg ha)] at h
          cases h
    · have hfeed : feed B (.value read) b = some (.value (read ++ [b]),[]) := by
        rw [feed, inValue, if_neg hb]
      rw [report_feed _ hfeed, after_last] at h
      obtain ⟨v,r,rfl,hv,hr⟩ := ih h
      refine ⟨b :: v,r,rfl,?_,hr⟩
      rw [List.mem_cons, not_or]
      exact ⟨Ne.symm hb,hv⟩

theorem gap_of_done {bs : Bytes} (h : (report B .gap bs).last = some .done) :
    ∃ n v r, bs = List.replicate n space ++ (v ++ cr :: lf :: r) ∧ cr ∉ v ∧
      (∀ b ∈ v.head?, b ≠ space) ∧ (report B .line r).last = some .done := by
  induction bs with
  | nil => cases h
  | cons b bs ih =>
    by_cases hb : b = space
    · have hfeed : feed B .gap b = some (.gap,[]) := by rw [feed, if_pos hb]
      rw [report_feed _ hfeed, after_last] at h
      obtain ⟨n,v,r,rfl,hv,hs,hr⟩ := ih h
      exact ⟨n+1,v,r,by rw [hb]; rfl,hv,hs,hr⟩
    · rw [report_gap hb] at h
      obtain ⟨v,r,hbs,hv,hr⟩ := value_of_done h
      refine ⟨0,v,r,hbs,hv,?_,hr⟩
      cases v with
      | nil => exact fun b hb => absurd hb (Option.not_mem_none b)
      | cons a v =>
        intro x hx
        obtain rfl := Option.some.inj hx
        rw [← (List.cons.inj hbs).1]
        exact hb

theorem line_of_done {bs : Bytes} (h : (report B .line bs).last = some .done) :
    (∃ hd r, bs = Header.text hd ++ r ∧ hd.Ok ∧ (report B .line r).last = some .done) ∨
    ∃ n r, bs = n ++ cr :: lf :: r ∧ (∀ b ∈ n, isName b = true) ∧
      (report B .content r).last = some .done := by
  suffices hname : ∀ (bs read : Bytes), (report B (.name read) bs).last = some .done →
      ∃ n, (∀ b ∈ n, isName b = true) ∧
        ((∃ r, bs = n ++ colon :: r ∧ (report B .gap r).last = some .done) ∨
        ∃ r, bs = n ++ cr :: lf :: r ∧ (report B .content r).last = some .done) by
    cases bs with
    | nil => cases h
    | cons b bs =>
      rw [report_line] at h
      obtain ⟨n,hn,⟨r,hbs,hr⟩ | ⟨r,hbs,hr⟩⟩ := hname _ _ h
      · obtain ⟨k,v,r',rfl,hv,hs,hr'⟩ := gap_of_done hr
        refine Or.inl ⟨⟨n,k,v⟩,r',?_,⟨hn,hv,hs⟩,hr'⟩
        rw [hbs]
        simp [Header.text]
      · exact Or.inr ⟨n,r,hbs,hn,hr⟩
  intro bs
  induction bs with
  | nil =>
    intro read h
    cases h
  | cons b bs ih =>
    intro read h
    by_cases hcr : b = cr
    · have hfeed : feed B (.name read) b = some (.blank,[]) := by rw [feed, inName, if_pos hcr]
      rw [report_feed _ hfeed, after_last] at h
      cases bs with
      | nil => cases h
      | cons a bs =>
        by_cases ha : a = lf
        · rw [ha, report_blank] at h
          refine ⟨[],List.forall_mem_nil _,Or.inr ⟨bs,by rw [hcr, ha]; rfl,?_⟩⟩
          cases bs with
          | nil => cases h
          | cons x bs =>
            rw [report_body, after_last] at h
            exact h
        · rw [report_reject _ (show feed B .blank a = none from if_neg ha)] at h
          cases h
    · by_cases hcolon : b = colon
      · have hfeed : feed B (.name read) b = some (.gap,[.field read]) := by
          rw [feed, inName, if_neg hcr, if_pos hcolon]
        rw [report_feed _ hfeed, after_last] at h
        exact ⟨[],List.forall_mem_nil _,Or.inl ⟨bs,by rw [hcolon]; rfl,h⟩⟩
      · by_cases hb : isName b = true
        · have hfeed : feed B (.name read) b = some (.name (read ++ [b]),[]) := by
            rw [feed, inName, if_neg hcr, if_neg hcolon, if_pos hb]
          rw [report_feed _ hfeed, after_last] at h
          obtain ⟨n,hn,hcase⟩ := ih _ h
          refine ⟨b :: n,List.forall_mem_cons.mpr ⟨hb,hn⟩,?_⟩
          rcases hcase with ⟨r,rfl,hr⟩ | ⟨r,rfl,hr⟩
          · exact Or.inl ⟨r,rfl,hr⟩
          · exact Or.inr ⟨r,rfl,hr⟩
        · have hfeed : feed B (.name read) b = none := by
            rw [feed, inName, if_neg hcr, if_neg hcolon, if_neg hb]
          rw [report_reject _ hfeed] at h
          cases h

theorem part_of_done (hB : cr ∉ B) (bs : Bytes) (h : (report B .line bs).last = some .done) :
    ∃ p r, bs = Part.text p ++ delimiter B ++ r ∧ p.Ok B ∧
      (report B .ended r).last = some .done := by
  rcases line_of_done h with ⟨hd,r,hbs,hok,hr⟩ | ⟨n,r,rfl,hn,hr⟩
  · have hlt : r.length < bs.length := by
      rw [hbs, List.length_append, Header.text]
      simp
    obtain ⟨p,r',rfl,hp,hr'⟩ := part_of_done hB r hr
    refine ⟨⟨hd :: p.headers,p.lastLine,p.content⟩,r',?_,⟨?_,hp.lastLine,hp.content⟩,hr'⟩
    · rw [hbs]
      simp [Part.text]
    · exact List.forall_mem_cons.mpr ⟨hok,hp.headers⟩
  · obtain ⟨c,r',rfl,hc,hr'⟩ := content_of_done hB hr
    exact ⟨⟨[],n,c⟩,r',by simp [Part.text],⟨nofun,hn,hc⟩,hr'⟩
termination_by bs.length

theorem ended_of_done {bs : Bytes} (h : (report B .ended bs).last = some .done) :
    (∃ r, bs = hyphen :: hyphen :: r) ∨
    ∃ r, bs = cr :: lf :: r ∧ (report B .line r).last = some .done := by
  cases bs with
  | nil => cases h
  | cons b bs =>
    by_cases hhyphen : b = hyphen
    · have hfeed : feed B .ended b = some (.hyphen,[]) := by rw [feed, if_pos hhyphen]
      rw [report_feed _ hfeed, after_last] at h
      cases bs with
      | nil => cases h
      | cons a bs =>
        by_cases ha : a = hyphen
        · exact Or.inl ⟨bs,by rw [hhyphen, ha]⟩
        · rw [report_reject _ (show feed B .hyphen a = none from if_neg ha)] at h
          cases h
    · by_cases hcr : b = cr
      · have hfeed : feed B .ended b = some (.next,[]) := by
          rw [feed, if_neg hhyphen, if_pos hcr]
        rw [report_feed _ hfeed, after_last] at h
        cases bs with
        | nil => cases h
        | cons a bs =>
          by_cases ha : a = lf
          · have hlf : feed B .next a = some (.line,[.partBegin]) := by rw [feed, if_pos ha]
            rw [report_feed _ hlf, after_last] at h
            exact Or.inr ⟨bs,by rw [hcr, ha],h⟩
          · rw [report_reject _ (show feed B .next a = none from if_neg ha)] at h
            cases h
      · have hfeed : feed B .ended b = none := by rw [feed, if_neg hhyphen, if_neg hcr]
        rw [report_reject _ hfeed] at h
        cases h

theorem remainder_of_done (hB : cr ∉ B) (bs : Bytes) (h : (report B .ended bs).last = some .done) :
    ∃ ps epilogue, bs = remainder B ps epilogue ∧ ∀ p ∈ ps, p.Ok B := by
  rcases ended_of_done h with ⟨r,rfl⟩ | ⟨r,hbs,hr⟩
  · exact ⟨[],r,rfl,nofun⟩
  · obtain ⟨p,r',rfl,hp,hr'⟩ := part_of_done hB r hr
    have hlt : r'.length < bs.length := by
      rw [hbs]
      simp
      omega
    obtain ⟨ps,epilogue,rfl,hps⟩ := remainder_of_done hB r' hr'
    exact ⟨p :: ps,epilogue,hbs,List.forall_mem_cons.mpr ⟨hp,hps⟩⟩
termination_by bs.length

theorem opening_of_done (n : ℕ) (bs : Bytes)
    (h : (report B (.boundary n) bs).last = some .done) :
    ∃ r, bs = (opening B).drop n ++ r ∧ (report B .line r).last = some .done := by
  induction bs generalizing n with
  | nil => cases h
  | cons b bs ih =>
    by_cases hb : (opening B)[n]? = some b
    · obtain ⟨hn,hget⟩ := List.getElem?_eq_some_iff.mp hb
      rw [List.drop_eq_getElem_cons hn, hget]
      by_cases hfull : n+1 = (opening B).length
      · have hfeed : feed B (.boundary n) b = some (.line,[.partBegin]) := by
          rw [feed, if_pos hb, if_pos hfull]
        rw [report_feed _ hfeed, after_last] at h
        exact ⟨bs,by rw [List.drop_eq_nil_of_le (Nat.le_of_eq hfull.symm)]; rfl,h⟩
      · have hfeed : feed B (.boundary n) b = some (.boundary (n+1),[]) := by
          rw [feed, if_pos hb, if_neg hfull]
        rw [report_feed _ hfeed, after_last] at h
        obtain ⟨r,hr,hlast⟩ := ih (n+1) h
        exact ⟨r,by rw [hr]; rfl,hlast⟩
    · rw [report_reject _ (show feed B (.boundary n) b = none from if_neg hb)] at h
      cases h

/-- A text is read to its end exactly when it is a body, and then its parts are told. -/
theorem report_done_iff (hB : cr ∉ B) (bs : Bytes) (ts : List Token) :
    ((report B (.boundary 0) bs).last = some .done ∧ (report B (.boundary 0) bs).tokens = ts) ↔
      ∃ ps epilogue, ps ≠ [] ∧ (∀ p ∈ ps, Part.Ok B p) ∧ bs = bodyText B ps epilogue ∧
        ts = bodyTokens ps := by
  constructor
  · rintro ⟨h,rfl⟩
    obtain ⟨r,rfl,hr⟩ := opening_of_done 0 bs h
    obtain ⟨p,r',rfl,hp,hr'⟩ := part_of_done hB r hr
    obtain ⟨ps,epilogue,rfl,hps⟩ := remainder_of_done hB r' hr'
    have htext : (opening B).drop 0 ++ (p.text ++ delimiter B ++ remainder B ps epilogue) =
        bodyText B (p :: ps) epilogue := by
      simp [opening, bodyText, remainder]
    have hall := List.forall_mem_cons.mpr ⟨hp,hps⟩
    refine ⟨p :: ps,epilogue,List.cons_ne_nil _ _,hall,htext,?_⟩
    rw [htext, report_bodyText hB (List.cons_ne_nil _ _) hall]
  · rintro ⟨ps,epilogue,hne,hps,rfl,rfl⟩
    rw [report_bodyText hB hne hps]
    exact ⟨rfl,rfl⟩

end Reading

/-- Callbacks that take note of every call. -/
def recorder : Settings (List Event) := fun e log => (log ++ [e],true)

theorem deliver_recorder (log d : List Event) : deliver recorder log d = (d ++ log,true) := by
  induction log generalizing d with
  | nil => rw [deliver, List.append_nil]
  | cons e log ih =>
    have hrest := ih (d ++ [e])
    rw [List.append_assoc, List.singleton_append] at hrest
    exact hrest

/-- The parser takes a whole buffer and stops behind the closing delimiter exactly when the
buffer is a body, the last header line of a part without a colon allowed. It has then told the
parts of the body, in their order. The boundary is any that is not empty and has no NUL and no
carriage return. -/
theorem execute_end_iff (B : Bytes) (hne : B ≠ []) (h0 : 0 ∉ B) (hcr : cr ∉ B) (body : Bytes)
    (ts : List Token) :
    (∃ p log, multipartParserExecute recorder (multipartParserInit B) [] body =
        some (.returned body.length p log) ∧ p.state = .sEnd ∧ log.flatMap flat = ts) ↔
      ∃ ps epilogue, ps ≠ [] ∧ (∀ p ∈ ps, Part.Ok B p) ∧ body = bodyText B ps epilogue ∧
        ts = bodyTokens ps := by
  have hclean : B.takeWhile (· ≠ 0) = B := by
    rw [List.takeWhile_eq_self_iff]
    intro b hb
    exact decide_eq_true fun h => h0 (h ▸ hb)
  have hwf : Wf B (multipartParserInit B) := by
    have h := wf_init B (by rwa [hclean])
    rwa [hclean] at h
  rw [← report_done_iff hcr body ts]
  obtain ⟨r,hr,ha⟩ := execute_answers recorder B _ [] body hwf
  rw [hr]
  cases r with
  | fault => exact ha.elim
  | returned n p log =>
    have hview : view (multipartParserInit B) [] = .boundary 0 := rfl
    rw [hview] at ha
    obtain ⟨log',-,⟨hlog,-⟩ | ⟨hlog,htokens,hn,hlast⟩⟩ := ha
    · rw [deliver_recorder] at hlog
      cases hlog
    · rw [deliver_recorder, List.nil_append] at hlog
      obtain rfl := (Prod.mk.inj hlog).1
      constructor
      · rintro ⟨q,log,hreturned,hend,rfl⟩
        injection hreturned with hreturned
        injection hreturned with hlen hq hl
        subst hlen hq hl
        have hrest : (report B (.boundary 0) body).rest = [] :=
          List.eq_nil_of_length_eq_zero (by omega)
        obtain ⟨r,hlr⟩ := (rest_eq_nil_iff B (.boundary 0) body).mp hrest
        have hv := (hlast r hlr).2
        rw [view, hend] at hv
        have hdone : r = .done := by
          cases r <;> cases hv
          rfl
        exact ⟨hlr.trans (congrArg some hdone),htokens.symm⟩
      · rintro ⟨hdone,rfl⟩
        have hrest := (rest_eq_nil_iff B (.boundary 0) body).mpr ⟨_,hdone⟩
        obtain ⟨hwf',hv⟩ := hlast _ hdone
        have hstate : p.state = .sEnd := by
          rw [view] at hv
          split at hv
          next hs => exact absurd hs hwf'.known
          all_goals first | assumption | cases hv
        rw [hrest, List.length_nil, Nat.add_zero] at hn
        exact ⟨p,log',by rw [hn],hstate,htokens⟩

/-- Two parts with headers, the second with a line without a colon and a content that begins as
the delimiter does. -/
def twoParts : List Part :=
  [⟨[⟨ascii "a",1,ascii "b"⟩],[],[7]⟩,
    ⟨[⟨ascii "c",0,ascii "d e"⟩,⟨ascii "x-y",2,[]⟩],ascii "z",[13,10,45,7]⟩]

theorem execute_end_sample :
    ∃ p log, multipartParserExecute recorder (multipartParserInit [45,45]) []
        (bodyText [45,45] twoParts [1]) =
        some (.returned (bodyText [45,45] twoParts [1]).length p log) ∧ p.state = .sEnd ∧
      log.flatMap flat = bodyTokens twoParts :=
  (execute_end_iff [45,45] (by decide) (by decide) (by decide) _ _).mpr
    ⟨twoParts,[1],by decide,by decide,rfl,rfl⟩

end WdHttp.MultipartGrammar
