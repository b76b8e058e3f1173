import WdHttp.MuploadServer
import Mathlib.Order.Bounds.Basic

/-!
# The chunk plan of an init request

Init divides the size of the file by the chunk size and rounds up. The size is
a JSON integer of any length that is converted to an `int` first, so the plan
is that of the submitted file only below `2^31`.
-/

set_option autoImplicit false

namespace WdHttp.MuploadPlan
open WdHttp.CText WdHttp.PosixFile WdHttp.MuploadServer

/-- All chunks but the last are full, and the last one is not empty. -/
def Planned (size : ℤ) (chunks : List Bytes) : Prop :=
  (∀ c ∈ chunks.dropLast, (c.length : ℤ) = size) ∧
    ∀ c ∈ chunks.getLast?, 1 ≤ c.length ∧ (c.length : ℤ) ≤ size

/-- The reply and the stored fields of an init describe the submitted file: its
size, and the least number of chunks that hold it, into which it can be cut. -/
structure ChunkPlan (v : Server) (r : InitRequest) : Prop where
  least : IsLeast {n : ℤ | r.filesize ≤ n*v.chunksize} (uppartInfo v r).chunkcount
  stored : stoi (argsVec v r 0).value = some (uppartInfo v r).chunkcount
  echoed : (uppartInfo v r).filesize = r.filesize
  storedSize : stoi (argsVec v r 2).value = some r.filesize
  partition : ∀ file : Bytes, (file.length : ℤ) = r.filesize →
    ∃ chunks : List Bytes, chunks.flatten = file ∧
      (chunks.length : ℤ) = (uppartInfo v r).chunkcount ∧ Planned v.chunksize chunks

theorem chunksize_natAbs (v : Server) : 2 ≤ v.chunksize.natAbs := by
  cases v <;> decide

theorem chunkcount_isInt (v : Server) (r : InitRequest) : IsInt (chunkcount v r) := by
  obtain ⟨h1,h2⟩ := toInt_isInt r.filesize
  have hd : ((filesize r).tdiv v.chunksize).natAbs ≤ (filesize r).natAbs/2 := by
    rw [Int.natAbs_tdiv]
    exact Nat.div_le_div_left (chunksize_natAbs v) (by decide)
  have hf : (filesize r).natAbs ≤ 2^31 := by
    simp only [filesize]
    omega
  simp only [IsInt, chunkcount]
  split_ifs <;> omega

theorem exists_chunks (size n : ℕ) (file : Bytes)
    (hle : file.length ≤ n*size) (hlt : n*size < file.length+size) :
    ∃ chunks : List Bytes, chunks.flatten = file ∧ chunks.length = n ∧ Planned size chunks := by
  induction n generalizing file with
  | zero =>
    refine ⟨[],?_,rfl,?_⟩
    · exact (List.length_eq_zero_iff.mp (by omega)).symm
    · simp [Planned]
  | succ n ih =>
    rw [Nat.succ_mul] at hle hlt
    by_cases hn : n = 0
    · subst hn
      refine ⟨[file],by simp,rfl,by simp,?_⟩
      intro c hc
      simp only [List.getLast?_singleton, Option.mem_some_iff] at hc
      subst hc
      omega
    · have hfirst : size ≤ n*size := Nat.le_mul_of_pos_left size (by omega)
      obtain ⟨chunks,hflat,hlen,hfull,hlast⟩ := ih (file.drop size)
        (by rw [List.length_drop]; omega) (by rw [List.length_drop]; omega)
      have hne : chunks ≠ [] := by
        intro he
        rw [he] at hlen
        exact hn hlen.symm
      refine ⟨file.take size::chunks,?_,by simp [hlen],?_,?_⟩
      · rw [List.flatten_cons, hflat, List.take_append_drop]
      · rw [List.dropLast_cons_of_ne_nil hne]
        intro c hc
        rcases List.mem_cons.mp hc with rfl | hc
        · rw [List.length_take]
          omega
        · exact hfull c hc
      · rw [List.getLast?_cons_of_ne_nil hne]
        exact hlast

theorem chunkcount_bounds (v : Server) (r : InitRequest) (h0 : 0 ≤ r.filesize)
    (hi : r.filesize < 2^31) :
    0 ≤ chunkcount v r ∧ r.filesize ≤ chunkcount v r*v.chunksize ∧
      chunkcount v r*v.chunksize < r.filesize+v.chunksize := by
  have hf : filesize r = r.filesize := toInt_of_isInt _ ⟨by omega,hi⟩
  rw [chunkcount, hf, Int.tdiv_eq_ediv_of_nonneg h0, Int.tmod_eq_emod_of_nonneg h0]
  cases v with
  | myDay08 =>
    simp only [Server.chunksize]
    split_ifs <;> omega
  | day08 =>
    simp only [Server.chunksize]
    split_ifs <;> omega

theorem chunksize_pos (v : Server) : 0 < v.chunksize := by
  cases v <;> decide

theorem chunkcount_least (v : Server) (r : InitRequest) (h0 : 0 ≤ r.filesize)
    (hi : r.filesize < 2^31) :
    IsLeast {n : ℤ | r.filesize ≤ n*v.chunksize} (chunkcount v r) := by
  obtain ⟨-,hle,hlt⟩ := chunkcount_bounds v r h0 hi
  refine ⟨hle,fun n hn => ?_⟩
  by_contra hcon
  have hmul : (n+1)*v.chunksize ≤ chunkcount v r*v.chunksize :=
    Int.mul_le_mul_of_nonneg_right (by omega) (chunksize_pos v).le
  have hn' : r.filesize ≤ n*v.chunksize := hn
  rw [Int.add_mul, Int.one_mul] at hmul
  omega

theorem chunkcount_partition (v : Server) (r : InitRequest) (h0 : 0 ≤ r.filesize)
    (hi : r.filesize < 2^31) (file : Bytes) (hf : (file.length : ℤ) = r.filesize) :
    ∃ chunks : List Bytes, chunks.flatten = file ∧
      (chunks.length : ℤ) = chunkcount v r ∧ Planned v.chunksize chunks := by
  obtain ⟨hnn,hle,hlt⟩ := chunkcount_bounds v r h0 hi
  obtain ⟨n,hn⟩ := Int.eq_ofNat_of_zero_le hnn
  obtain ⟨size,hs⟩ := Int.eq_ofNat_of_zero_le (chunksize_pos v).le
  rw [hn, hs, ← hf] at hle hlt
  obtain ⟨chunks,hflat,hlen,hplan⟩ := exists_chunks size n file (by exact_mod_cast hle)
    (by exact_mod_cast hlt)
  exact ⟨chunks,hflat,by rw [hlen, hn],hs ▸ hplan⟩

/-- Of the sizes of files, exactly those below `2^31` get the plan of their file. -/
theorem chunk_plan_iff (v : Server) (r : InitRequest) (h0 : 0 ≤ r.filesize) :
    ChunkPlan v r ↔ r.filesize < 2^31 := by
  constructor
  · intro hP
    have hint := (toInt_isInt r.filesize).2
    have hecho : toInt r.filesize = r.filesize := hP.echoed
    rwa [hecho] at hint
  · intro hi
    have hf : filesize r = r.filesize := toInt_of_isInt _ ⟨by omega,hi⟩
    exact
      { least := chunkcount_least v r h0 hi
        stored := stoi_stdToString _ (chunkcount_isInt v r)
        echoed := hf
        storedSize := by
          rw [← hf]
          exact stoi_stdToString _ (toInt_isInt _)
        partition := chunkcount_partition v r h0 hi }

def threeMegabytes : InitRequest where
  filename := "a.bin".toList
  filehash := "ab12".toList
  filesize := 3000000
  time := ⟨Fin.last 23,Fin.last 59⟩

theorem threeMegabytes_planned :
    (uppartInfo .myDay08 threeMegabytes).chunkcount = 2 ∧ ChunkPlan .myDay08 threeMegabytes :=
  ⟨by decide,(chunk_plan_iff .myDay08 threeMegabytes (by decide)).mpr (by simp [threeMegabytes])⟩

def fourGigabytes : InitRequest := { threeMegabytes with filesize := 4294967297 }

theorem fourGigabytes_in_one_chunk :
    0 ≤ fourGigabytes.filesize ∧ fourGigabytes.filesize < 2^63 ∧
      (uppartInfo .myDay08 fourGigabytes).chunkcount = 1 ∧
      (uppartInfo .myDay08 fourGigabytes).filesize = 1 ∧ ¬ ChunkPlan .myDay08 fourGigabytes := by
  refine ⟨by decide,by simp [fourGigabytes],by decide,by decide,fun hP => ?_⟩
  have hecho : (1 : ℤ) = 4294967297 := hP.echoed
  exact absurd hecho (by decide)

end WdHttp.MuploadPlan
