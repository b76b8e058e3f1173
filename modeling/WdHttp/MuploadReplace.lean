import WdHttp.MuploadProgress

/-!
# Sending a chunk again

The file of a chunk is opened without truncation and written from its start.
After any sequence of requests for one chunk, each handled alone and without
a failure, the file holds the last body followed by whatever part of the
earlier content that body does not cover.
-/

set_option autoImplicit false

namespace WdHttp.MuploadReplace
open WdHttp.CText WdHttp.PosixFile WdHttp.RedisHash WdHttp.MuploadServer WdHttp.PartialRun
open WdHttp.MuploadHistory WdHttp.MuploadProgress

/-- The steps of one uppart request handled alone and without a failure. -/
def handled (id : ℕ) (u c : Str) (body : Bytes) : List Event :=
  [.uppart id u c body, .hget id true, .callback id (.wrote body.length), .hset id, .reply id]

def handledAll (u c : Str) : ℕ → List Bytes → List Event
  | _, [] => []
  | id, body::bodies => handled id u c body ++ handledAll u c (id+1) bodies

def chunkFile (h : Host) (s : State) (u c : Str) : Path :=
  h.file (stringValue (hget s.redis u filehashField)) c

def written (old : Option Bytes) (body : Bytes) : Option Bytes :=
  some (overwrite (old.getD []) body)

theorem progressField_ne_filehash (c : Str) : filehashField ≠ progressField c := by
  intro h
  have ht := progressField_take c
  rw [← h] at ht
  exact metaField_take 1 ht

theorem run_handled (h : Host) (s : State) (id : ℕ) (u c : Str) (body : Bytes)
    (hf : s.flights id = none) :
    ∃ t, runs h s (handled id u c body) = some t ∧
      hget t.redis u filehashField = hget s.redis u filehashField ∧
      t.disk = Function.update s.disk (chunkFile h s u c)
        (written (s.disk (chunkFile h s u c)) body) ∧
      ∀ i, i ≠ id → t.flights i = s.flights i := by
  let fh := stringValue (hget s.redis u filehashField)
  let s₁ := (s.put id (.uppart u c body .hget)).put id (.uppart u c body (.callback fh))
  let s₂ := (s₁.write (h.file fh c) body (.wrote body.length)).put id (.uppart u c body (.hset 0))
  let s₃ := (s₂.hset (uppartHset u c)).put id (.uppart u c body (.hset 1))
  refine ⟨s₃.put id (.uppart u c body (.done 1)),?_,?_,?_,?_⟩
  · simp [runs, run, handled, step, arrive, hf, retryMax, s₃, s₂, s₁, fh]
  · simp [s₃, s₂, s₁, uppartHset, hget_hset_field _ _ _ _ _ (progressField_ne_filehash c)]
  · simp [s₃, s₂, s₁, openWrite, written, content, chunkFile, fh]
  · intro i hi
    simp [s₃, s₂, s₁, put_other, hi]

theorem run_handledAll (h : Host) (u c : Str) (bodies : List Bytes) (s : State) (id : ℕ)
    (hf : ∀ i, id ≤ i → s.flights i = none) :
    ∃ t, runs h s (handledAll u c id bodies) = some t ∧
      t.disk (chunkFile h s u c) = bodies.foldl written (s.disk (chunkFile h s u c)) ∧
      ∀ q, q ≠ chunkFile h s u c → t.disk q = s.disk q := by
  induction bodies generalizing s id with
  | nil => exact ⟨s,rfl,rfl,fun _ _ => rfl⟩
  | cons body bodies ih =>
    obtain ⟨m,hm,hhash,hdisk,hflights⟩ := run_handled h s id u c body (hf id (le_refl id))
    have hfile : chunkFile h m u c = chunkFile h s u c := by
      rw [chunkFile, hhash, chunkFile]
    obtain ⟨t,ht,hp,hq⟩ := ih m (id+1) (fun i hi => by
      rw [hflights i (by omega)]
      exact hf i (by omega))
    rw [hfile] at hp hq
    refine ⟨t,(run_append_iff s t _ _).mpr ⟨m,hm,ht⟩,?_,fun q hne => ?_⟩
    · rw [hp, hdisk, Function.update_self, List.foldl_cons]
    · rw [hq q hne, hdisk, Function.update_of_ne hne]

theorem foldl_written_length (bodies : List Bytes) (old : Option Bytes) (n : ℕ) :
    ((bodies.foldl written old).getD []).length ≤ n ↔
      ∀ x ∈ old.toList ++ bodies, x.length ≤ n := by
  induction bodies generalizing old with
  | nil => cases old <;> simp
  | cons body bodies ih =>
    rw [List.foldl_cons, ih]
    cases old with
    | none => simp [written, overwrite]
    | some old => simp [written, overwrite_length, and_assoc]

/-- The last body alone is left exactly when neither the file before nor any
earlier body is longer than it. -/
theorem reupload_replaces_iff (h : Host) (s : State) (id : ℕ) (u c : Str) (bodies : List Bytes)
    (last : Bytes) (hf : ∀ i, id ≤ i → s.flights i = none) :
    ∃ t, runs h s (handledAll u c id (bodies ++ [last])) = some t ∧
      ((t.disk (chunkFile h s u c) = some last ∧
          ∀ q, q ≠ chunkFile h s u c → t.disk q = s.disk q) ↔
        ∀ old ∈ (s.disk (chunkFile h s u c)).toList ++ bodies, old.length ≤ last.length) := by
  obtain ⟨t,ht,hp,hq⟩ := run_handledAll h u c (bodies ++ [last]) s id hf
  refine ⟨t,ht,?_⟩
  rw [List.foldl_append] at hp
  rw [hp, ← foldl_written_length bodies (s.disk (chunkFile h s u c)) last.length,
    ← overwrite_eq_iff]
  constructor
  · intro hlast
    exact Option.some.inj hlast.1
  · intro hlast
    exact ⟨congrArg some hlast,hq⟩

def readyState : State :=
  (start fun _ => none).hset ⟨sampleKey,filehashField,"ab12".toList⟩

theorem reupload_replaces_growing :
    ∃ t, runs sampleHost readyState (handledAll sampleKey "1".toList 0 ([[1],[2,3]] ++ [[4,5]]))
        = some t ∧
      ((t.disk (chunkFile sampleHost readyState sampleKey "1".toList) = some [4,5] ∧
          ∀ q, q ≠ chunkFile sampleHost readyState sampleKey "1".toList →
            t.disk q = readyState.disk q) ↔
        ∀ old ∈ (readyState.disk (chunkFile sampleHost readyState sampleKey "1".toList)).toList ++
          [[1],[2,3]], old.length ≤ 2) :=
  reupload_replaces_iff sampleHost readyState 0 sampleKey "1".toList [[1],[2,3]] [4,5]
    (fun _ _ => rfl)

theorem shorter_reupload_keeps_tail :
    ∃ t, runs sampleHost readyState (handledAll sampleKey "1".toList 0 [[1,2,3],[9]]) = some t ∧
      t.disk (chunkFile sampleHost readyState sampleKey "1".toList) = some [9,2,3] ∧
      ¬ t.disk (chunkFile sampleHost readyState sampleKey "1".toList) = some [9] := by
  refine ⟨_,rfl,rfl,fun h => ?_⟩
  cases (show some ([9,2,3] : Bytes) = some [9] from h)

end WdHttp.MuploadReplace
