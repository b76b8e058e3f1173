import WdHttp.MultipartForm

/-!
# Bodies in pieces

The multipart parser keeps its state between calls, so that a body can come in several
buffers. A header name that a cut divides is told in two parts, and a line without a
colon is then told although it would be forgotten whole. Cuts anywhere else do not
change the form.
-/

set_option autoImplicit false

namespace WdHttp.MultipartStreaming
open WdHttp.PartialRun WdHttp.PosixFile WdHttp.MultipartParser WdHttp.MultipartReading
open WdHttp.MultipartRefinement WdHttp.MultipartForm

def parseStreamed (boundary : Bytes) (bufs : List Bytes) : Option Form :=
  match executeAll settings (multipartParserInit (dashed boundary)) (some noUserdata) bufs with
  | some (.returned _ _ (some u)) => some u.mp
  | _ => none

/-- No cut between two buffers is inside the name of a header or right behind it. -/
def NamesWhole (B : Bytes) (r : Reading) (bufs : List Bytes) : Prop :=
  ∀ l₁ l₂, bufs = l₁ ++ l₂ → l₂ ≠ [] → ∀ n, (report B r l₁.flatten).last = some (.name n) → n = []

section Streams

variable {B : Bytes}

theorem report_append {r r' : Reading} (xs : Bytes) (h : (report B r xs).last = some r') :
    ∃ ts, (report B r xs).tokens = ts ++ unfinished r' ∧
      ∀ ys, report B r (xs ++ ys) = (report B r' ys).after ts := by
  induction xs generalizing r with
  | nil =>
    obtain rfl : r = r' := Option.some.inj h
    exact ⟨[],rfl,fun _ => rfl⟩
  | cons x xs ih =>
    cases hx : feed B r x with
    | none =>
      rw [report_reject xs hx] at h
      cases h
    | some rts =>
      rw [report_feed xs hx] at h
      obtain ⟨ts,htokens,hys⟩ := ih h
      refine ⟨rts.2 ++ ts,?_,?_⟩
      · rw [report_feed xs hx, Report.after, htokens, List.append_assoc]
      · intro ys
        rw [List.cons_append, report_feed _ hx, hys, after_after]

theorem report_append_none {r : Reading} (xs ys : Bytes) (h : (report B r xs).last = none) :
    (report B r (xs ++ ys)).tokens = (report B r xs).tokens := by
  induction xs generalizing r with
  | nil => cases h
  | cons x xs ih =>
    cases hx : feed B r x with
    | none => rw [List.cons_append, report_reject _ hx, report_reject _ hx]
    | some rts =>
      rw [report_feed xs hx] at h ⊢
      rw [List.cons_append, report_feed _ hx]
      exact congrArg (rts.2 ++ ·) (ih h)

theorem run_value (u : Userdata) (a : Bytes) :
    run onToken u (unfinished (.value a)) =
      some { u with headerValue := u.headerValue ++ a } := by
  by_cases ha : a = []
  · rw [unfinished, if_pos ha, ha, List.append_nil]
    rfl
  · rw [unfinished, if_neg ha]
    rfl

theorem run_split_value (u : Userdata) (a b ys : Bytes) :
    run onToken u (unfinished (.value a) ++ (report B (.value b) ys).tokens) =
      run onToken u (report B (.value (a ++ b)) ys).tokens := by
  induction ys generalizing b with
  | nil =>
    change run onToken u (_ ++ unfinished (.value b)) = run onToken u (unfinished (.value (a ++ b)))
    rw [run_append, run_value, Option.bind_some, run_value, run_value]
    simp
  | cons y ys ih =>
    by_cases hy : y = cr
    · have hfeed : ∀ v, feed B (.value v) y = some (.lineEnd,[.value v]) := by
        intro v
        rw [feed, inValue, if_pos hy]
      rw [report_feed ys (hfeed b), report_feed ys (hfeed (a ++ b)), run_append, run_value,
        Option.bind_some]
      change run onToken { u with headerValue := (u.headerValue ++ a) ++ b } _ =
        run onToken { u with headerValue := u.headerValue ++ (a ++ b) } _
      rw [List.append_assoc]
    · have hfeed : ∀ v, feed B (.value v) y = some (.value (v ++ [y]),[]) := by
        intro v
        rw [feed, inValue, if_neg hy]
      rw [report_feed ys (hfeed b), report_feed ys (hfeed (a ++ b)), after_nil, after_nil, ih,
        List.append_assoc]

theorem last_split_value (a b ys : Bytes) (n : Bytes)
    (h : (report B (.value b) ys).last = some (.name n)) :
    (report B (.value a) ys).last = some (.name n) := by
  induction ys generalizing a b with
  | nil => cases h
  | cons y ys ih =>
    by_cases hy : y = cr
    · have hfeed : ∀ v, feed B (.value v) y = some (.lineEnd,[.value v]) := by
        intro v
        rw [feed, inValue, if_pos hy]
      rw [report_feed ys (hfeed b)] at h
      rw [report_feed ys (hfeed a)]
      exact h
    · have hfeed : ∀ v, feed B (.value v) y = some (.value (v ++ [y]),[]) := by
        intro v
        rw [feed, inValue, if_neg hy]
      rw [report_feed ys (hfeed b)] at h
      rw [report_feed ys (hfeed a)]
      exact ih _ _ h

theorem run_resume (u : Userdata) (r : Reading) (hr : ∀ n, r = .name n → n = []) (ys : Bytes) :
    run onToken u (unfinished r ++ (report B (resume r) ys).tokens) =
      run onToken u (report B r ys).tokens := by
  cases r with
  | name n =>
    obtain rfl := hr n rfl
    rfl
  | value a =>
    have h := run_split_value (B := B) u a [] ys
    rw [List.append_nil] at h
    exact h
  | _ => rfl

theorem last_resume (r : Reading) (hr : ∀ n, r = .name n → n = []) (ys n : Bytes)
    (h : (report B (resume r) ys).last = some (.name n)) :
    (report B r ys).last = some (.name n) := by
  cases r with
  | name m =>
    obtain rfl := hr m rfl
    exact h
  | value a => exact last_split_value a [] ys n h
  | _ => exact h

theorem run_readAll (u : Userdata) (r : Reading) (bufs : List Bytes) (hn : NamesWhole B r bufs)
    (hr : unfinished r = []) :
    run onToken u (readAll B r bufs).tokens = run onToken u (report B r bufs.flatten).tokens := by
  induction bufs generalizing u r with
  | nil =>
    change some u = run onToken u (unfinished r)
    rw [hr]
    rfl
  | cons buf bufs ih =>
    rw [readAll, List.flatten_cons]
    cases hl : (report B r buf).last with
    | none => rw [report_append_none _ _ hl]
    | some r' =>
      obtain ⟨ts,htokens,happ⟩ := report_append buf hl
      dsimp only
      rw [happ, htokens]
      by_cases hb : bufs = []
      · subst hb
        rw [readAll, Report.after, List.append_nil]
        rfl
      · have hname : ∀ n, r' = .name n → n = [] := by
          intro n h
          apply hn [buf] bufs rfl hb n
          rw [List.flatten_singleton, hl, h]
        have hrest : NamesWhole B (resume r') bufs := by
          intro l₁ l₂ hsplit hne n h
          apply hn (buf :: l₁) l₂ (by rw [hsplit]; rfl) hne n
          rw [List.flatten_cons, happ, after_last]
          exact last_resume r' hname _ n h
        have hunfinished : unfinished (resume r') = [] := by
          cases r' <;> rfl
        change run onToken u (ts ++ unfinished r' ++ (readAll B (resume r') bufs).tokens) =
          run onToken u (ts ++ (report B r' bufs.flatten).tokens)
        rw [List.append_assoc, run_append, run_append]
        congr 1
        funext v
        rw [← run_resume v r' hname, run_append, run_append]
        congr 1
        funext w
        exact ih w (resume r') hrest hunfinished

end Streams

theorem executeAll_settings (B : Bytes) (p : Parser) (u : Userdata) (bufs : List Bytes)
    (hp : Wf B p) : ∃ n q, executeAll settings p (some u) bufs =
      some (.returned n q (run onToken u (readAll B (view p []) bufs).tokens)) := by
  obtain ⟨r,hr,ha⟩ := executeAll_answers settings B p (some u) bufs hp
  cases r with
  | fault => exact ha.elim
  | returned n q d =>
    refine ⟨n,q,?_⟩
    rw [hr]
    obtain ⟨log,⟨rest,hpre⟩,⟨hlog,-⟩ | ⟨hlog,htokens,-⟩⟩ := ha
    · rw [deliver_settings] at hlog
      obtain ⟨hd,hnone⟩ := Prod.mk.inj hlog
      rw [Option.isSome_eq_false_iff, Option.isNone_iff_eq_none] at hnone
      rw [← hpre, run_append, hnone, ← hd, hnone]
      rfl
    · rw [deliver_settings, htokens] at hlog
      rw [(Prod.mk.inj hlog).1]

/-- A form does not depend on how its body is cut, as long as no cut is at a header name. -/
theorem parseStreamed_eq (boundary : Bytes) (bufs : List Bytes)
    (h : NamesWhole (cleanBoundary boundary) (.boundary 0) bufs) :
    parseStreamed boundary bufs = parseMultipart boundary bufs.flatten := by
  have hwf : Wf (cleanBoundary boundary) (multipartParserInit (dashed boundary)) :=
    wf_init (dashed boundary) (List.cons_ne_nil _ _)
  obtain ⟨n,q,he⟩ := executeAll_settings _ _ noUserdata bufs hwf
  rw [parseStreamed, he, parseMultipart_eq]
  have hrun : run onToken noUserdata (readAll (cleanBoundary boundary)
      (view (multipartParserInit (dashed boundary)) []) bufs).tokens = _ :=
    run_readAll noUserdata (.boundary 0) bufs h rfl
  rw [hrun]
  cases run onToken noUserdata (report (cleanBoundary boundary) (.boundary 0) bufs.flatten).tokens
    with
  | none => rfl
  | some u => rfl

/-- The first cut is inside the boundary, the second behind the headers. -/
theorem parseStreamed_sample :
    parseStreamed [98] [[45],[45,98,13,10,13,10],[7]] =
      parseMultipart [98] [45,45,98,13,10,13,10,7] := by
  refine parseStreamed_eq [98] _ ?_
  intro l₁ l₂ hsplit hne n hn
  have h0 : (report (cleanBoundary [98]) (.boundary 0) []).last = some (.boundary 0) := rfl
  have h1 : (report (cleanBoundary [98]) (.boundary 0) [45]).last = some (.boundary 1) := rfl
  have h2 : (report (cleanBoundary [98]) (.boundary 0) [45,45,98,13,10,13,10]).last =
      some .body := rfl
  cases l₁ with
  | nil => cases h0.symm.trans hn
  | cons a l₁ =>
    obtain ⟨ha,hsplit⟩ := List.cons.inj hsplit
    cases l₁ with
    | nil =>
      rw [← ha] at hn
      cases h1.symm.trans hn
    | cons b l₁ =>
      obtain ⟨hb,hsplit⟩ := List.cons.inj hsplit
      cases l₁ with
      | nil =>
        rw [← ha, ← hb] at hn
        cases h2.symm.trans hn
      | cons c l₁ =>
        have hnil := (List.cons.inj hsplit).2
        exact absurd (List.append_eq_nil_iff.mp hnil.symm).2 hne

end WdHttp.MultipartStreaming
