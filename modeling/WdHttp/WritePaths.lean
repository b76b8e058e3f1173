import WdHttp.MuploadProgress
import WdHttp.CloudUpload

/-!
# The files that requests write to

A chunk is written to the path made of the hash that `HGET` returned, a slash
and the index sent by the client; an upload to the cloud disk is written below
`tmp/` under the client's file name. None of these strings is looked at before
`open`. The file is an entry of the intended directory exactly when the last
string, as a relative path, leads to one.
-/

set_option autoImplicit false

namespace WdHttp.WritePaths
open WdHttp.CText WdHttp.PosixFile WdHttp.RedisHash WdHttp.MuploadServer WdHttp.PartialRun
open WdHttp.MuploadHistory WdHttp.MuploadProgress

/-- The file is directly inside the directory named by the text; the empty path
names none. -/
def Inside (cwd : Path) (dir : Str) (file : Path) : Prop :=
  cStr dir ≠ [] ∧ ∃ x, file = x::resolve cwd dir

/-- A chunk request whose `HGET` runs, or fails, in a reachable state. -/
structure ChunkWrite (h : Host) where
  state : State
  reached : ∃ disk es, runs h (start disk) es = some state
  u : Str
  c : Str
  ok : Bool

variable {h : Host}

def ChunkWrite.filehash (w : ChunkWrite h) : Str :=
  stringValue (if w.ok then hget w.state.redis w.u filehashField else none)

def ChunkWrite.file (w : ChunkWrite h) : Path := h.file w.filehash w.c

def ChunkWrite.pair (w : ChunkWrite h) : Str × Str := (w.filehash,w.c)

def tmpDir : Str := "tmp".toList

def uploadFile (h : Host) (name : Str) : Path := resolve h.cwd (CloudUpload.filepath name)

/-- Every chunk is written directly inside the directory of an initialised upload,
different chunks to different files, and every upload directly inside `tmp/`. -/
structure Confined (h : Host) (ws : List (ChunkWrite h)) (names : List Str) : Prop where
  initialised : ∀ w ∈ ws, ∃ i r n, w.state.flights i = some (.init r n) ∧
    initKey h.server r = w.u ∧ r.filehash = w.filehash
  inside : ∀ w ∈ ws, Inside h.cwd w.filehash w.file
  apart : ∀ w ∈ ws, ∀ w' ∈ ws, w.pair ≠ w'.pair → w.file ≠ w'.file
  uploads : ∀ name ∈ names, Inside h.cwd tmpDir (uploadFile h name)

/-- The hash of every chunk is stored and names a directory, its index leads to an
entry of it, and different chunks differ in the directory or in the entry. -/
structure Tame (h : Host) (ws : List (ChunkWrite h)) (names : List Str) : Prop where
  known : ∀ w ∈ ws, w.ok = true ∧ filehashField ∈ w.state.redis w.u
  named : ∀ w ∈ ws, w.filehash ≠ [] ∧ '\x00' ∉ w.filehash
  entries : ∀ w ∈ ws, ∃ x, (relative w.c).EntryOf (resolve h.cwd w.filehash) x
  apart : ∀ w ∈ ws, ∀ w' ∈ ws, w.pair ≠ w'.pair →
    resolve h.cwd w.filehash ≠ resolve h.cwd w'.filehash ∨
      (relative w.c).names.head? ≠ (relative w'.c).names.head?
  uploads : ∀ name ∈ names, ∃ x, (relative name).EntryOf (tmpDir::h.cwd) x

theorem resolve_cut (cwd : Path) (dir c : Str) (h0 : '\x00' ∈ dir) :
    resolve cwd (dir ++ '/'::c) = resolve cwd dir := by
  have hs : cStr (dir ++ '/'::c) = cStr dir := by
    rw [cStr, cStr, List.takeWhile_append, if_neg]
    intro hl
    have hall := List.takeWhile_eq_self_iff.mp ((List.takeWhile_prefix _).eq_of_length hl)
    exact absurd (hall _ h0) (by decide)
  rw [resolve, resolve, hs]

theorem inside_iff (cwd : Path) (dir c : Str) :
    Inside cwd dir (resolve cwd (dir ++ '/'::c)) ↔
      (dir ≠ [] ∧ '\x00' ∉ dir) ∧ ∃ x, (relative c).EntryOf (resolve cwd dir) x := by
  by_cases h0 : '\x00' ∈ dir
  · rw [resolve_cut cwd dir c h0]
    constructor
    · rintro ⟨-,x,hx⟩
      exact absurd (congrArg List.length hx) (by simp)
    · rintro ⟨⟨-,hn⟩,-⟩
      exact absurd h0 hn
  · rw [Inside, cStr_of_no_nul dir h0]
    constructor
    · rintro ⟨hne,x,hx⟩
      rw [resolve_below cwd dir c hne h0] at hx
      exact ⟨⟨hne,h0⟩,x,(Relative.under_eq_cons_iff _ _ x).mp hx⟩
    · rintro ⟨⟨hne,-⟩,x,hx⟩
      refine ⟨hne,x,?_⟩
      rw [resolve_below cwd dir c hne h0]
      exact (Relative.under_eq_cons_iff _ _ x).mpr hx

theorem tmpDir_resolve (cwd : Path) : resolve cwd tmpDir = tmpDir::cwd :=
  resolve_plain cwd tmpDir (by decide)

theorem uploadFile_inside_iff (name : Str) :
    Inside h.cwd tmpDir (uploadFile h name) ↔ ∃ x, (relative name).EntryOf (tmpDir::h.cwd) x := by
  have hf : CloudUpload.filepath name = tmpDir ++ '/'::name := rfl
  have hd : tmpDir ≠ [] ∧ '\x00' ∉ tmpDir := by decide
  rw [uploadFile, hf, inside_iff, tmpDir_resolve, and_iff_right hd]

theorem file_inside_iff (w : ChunkWrite h) :
    Inside h.cwd w.filehash w.file ↔ (w.filehash ≠ [] ∧ '\x00' ∉ w.filehash) ∧
      ∃ x, (relative w.c).EntryOf (resolve h.cwd w.filehash) x :=
  inside_iff h.cwd w.filehash w.c

theorem file_eq_iff (w w' : ChunkWrite h) (hw : Inside h.cwd w.filehash w.file)
    (hw' : Inside h.cwd w'.filehash w'.file) :
    w.file = w'.file ↔ resolve h.cwd w.filehash = resolve h.cwd w'.filehash ∧
      (relative w.c).names.head? = (relative w'.c).names.head? := by
  obtain ⟨⟨hn,h0⟩,x,hx⟩ := (file_inside_iff w).mp hw
  obtain ⟨⟨hn',h0'⟩,x',hx'⟩ := (file_inside_iff w').mp hw'
  have hf : w.file = x::resolve h.cwd w.filehash := by
    rw [ChunkWrite.file, Host.file, filepath, resolve_below _ _ _ hn h0]
    exact (Relative.under_eq_cons_iff _ _ x).mpr hx
  have hf' : w'.file = x'::resolve h.cwd w'.filehash := by
    rw [ChunkWrite.file, Host.file, filepath, resolve_below _ _ _ hn' h0']
    exact (Relative.under_eq_cons_iff _ _ x').mpr hx'
  rw [hf, hf', hx, hx', List.head?_cons, List.head?_cons, List.cons.injEq, Option.some.injEq]
  exact And.comm

theorem known_initialised (w : ChunkWrite h) (hok : w.ok = true)
    (hm : filehashField ∈ w.state.redis w.u) :
    ∃ i r n, w.state.flights i = some (.init r n) ∧ initKey h.server r = w.u ∧
      r.filehash = w.filehash := by
  obtain ⟨disk,es,hr⟩ := w.reached
  have hF := run_faithful h w.u _ w.state es (start_idle disk) rfl hr
  obtain ⟨x,hx⟩ := Finmap.mem_iff.mp hm
  obtain ⟨i,r,n,hf,hk,hv,-⟩ := landed_meta h.server w.state w.u x 1 (hF.sound _ x hx)
  refine ⟨i,r,n,hf,hk,?_⟩
  have hget : hget w.state.redis w.u filehashField = some x := hx
  rw [ChunkWrite.filehash, if_pos hok, hget, hv]
  rfl

theorem known_of_filehash (w : ChunkWrite h) (hne : w.filehash ≠ []) :
    w.ok = true ∧ filehashField ∈ w.state.redis w.u := by
  unfold ChunkWrite.filehash at hne
  cases hok : w.ok with
  | false =>
    rw [hok] at hne
    exact absurd rfl hne
  | true =>
    refine ⟨rfl,?_⟩
    rw [hok, if_pos rfl] at hne
    by_contra hm
    have hnone : hget w.state.redis w.u filehashField = none :=
      Finmap.lookup_eq_none.mpr hm
    rw [hnone] at hne
    exact hne rfl

theorem tame_of_confined (ws : List (ChunkWrite h)) (names : List Str)
    (hC : Confined h ws names) : Tame h ws names := by
  refine ⟨fun w hw => ?_,fun w hw => ?_,fun w hw => ?_,fun w hw w' hw' hne => ?_,fun name hn => ?_⟩
  · exact known_of_filehash w ((file_inside_iff w).mp (hC.inside w hw)).1.1
  · exact ((file_inside_iff w).mp (hC.inside w hw)).1
  · exact ((file_inside_iff w).mp (hC.inside w hw)).2
  · have hfile := hC.apart w hw w' hw' hne
    rw [Ne, file_eq_iff w w' (hC.inside w hw) (hC.inside w' hw')] at hfile
    exact Classical.not_and_iff_not_or_not.mp hfile
  · exact (uploadFile_inside_iff name).mp (hC.uploads name hn)

theorem confined_of_tame (ws : List (ChunkWrite h)) (names : List Str)
    (hT : Tame h ws names) : Confined h ws names := by
  have hin : ∀ w ∈ ws, Inside h.cwd w.filehash w.file := fun w hw =>
    (file_inside_iff w).mpr ⟨hT.named w hw,hT.entries w hw⟩
  refine ⟨fun w hw => ?_,hin,fun w hw w' hw' hne => ?_,fun name hn => ?_⟩
  · exact known_initialised w (hT.known w hw).1 (hT.known w hw).2
  · rw [Ne, file_eq_iff w w' (hin w hw) (hin w' hw')]
    exact Classical.not_and_iff_not_or_not.mpr (hT.apart w hw w' hw' hne)
  · exact (uploadFile_inside_iff name).mpr (hT.uploads name hn)

/-- Any indices, any ids, any file names, any reachable states. -/
theorem writes_confined_iff (h : Host) (ws : List (ChunkWrite h)) (names : List Str) :
    Confined h ws names ↔ Tame h ws names :=
  ⟨tame_of_confined ws names,confined_of_tame ws names⟩

theorem confined_of_plain (ws : List (ChunkWrite h)) (names : List Str)
    (hw : ∀ w ∈ ws, Plain w.filehash ∧ Plain w.c) (hn : ∀ name ∈ names, Plain name) :
    Confined h ws names := by
  apply confined_of_tame
  have hentry : ∀ c dir, Plain c → (relative c).EntryOf dir c := by
    intro c dir hc
    rw [relative_plain c hc]
    rfl
  refine ⟨fun w hm => ?_,fun w hm => ?_,fun w hm => ?_,fun w hm w' hm' hne => ?_,fun name hm => ?_⟩
  · exact known_of_filehash w (hw w hm).1.1
  · exact ⟨(hw w hm).1.1,(hw w hm).1.2.2.2.2⟩
  · exact ⟨w.c,hentry _ _ (hw w hm).2⟩
  · rw [resolve_plain _ _ (hw w hm).1, resolve_plain _ _ (hw w' hm').1,
      relative_plain _ (hw w hm).2, relative_plain _ (hw w' hm').2]
    by_contra hcon
    simp only [ne_eq, List.cons.injEq, and_true, List.head?_cons, Option.some.injEq, not_or,
      not_not] at hcon
    exact hne (Prod.ext hcon.1 hcon.2)
  · exact ⟨name,hentry _ _ (hn name hm)⟩

theorem climbing_index_escapes :
    ∃ w : ChunkWrite sampleHost, w.u = sampleKey ∧ w.c = "../evil".toList ∧
      w.filehash = "ab12".toList ∧ w.file = ["evil".toList,"srv".toList] ∧
      ¬ Confined sampleHost [w] [] := by
  refine ⟨⟨_,⟨fun _ => none,sampleUpload,rfl⟩,sampleKey,"../evil".toList,true⟩,rfl,rfl,rfl,
    by decide,?_⟩
  intro hC
  obtain ⟨-,x,hx⟩ := hC.inside _ List.mem_cons_self
  have hl : 2 = 3 := congrArg List.length hx
  exact absurd hl (by decide)

end WdHttp.WritePaths
