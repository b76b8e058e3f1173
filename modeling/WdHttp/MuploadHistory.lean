import WdHttp.MuploadServer
import Mathlib.Tactic.FinCases

/-!
# Requests in flight and the history of a run

A flight keeps the request it came from through all its phases, so the
flights of a state are exactly the requests that have arrived. The fields
stored under a key are exactly those of the `HSET` commands applied to it.
-/

set_option autoImplicit false

namespace WdHttp.MuploadHistory
open WdHttp.CText WdHttp.PosixFile WdHttp.RedisHash WdHttp.MuploadServer WdHttp.PartialRun

def arrival (id : ℕ) : Flight → Event
  | .init r _ => .init id r
  | .uppart u c body _ => .uppart id u c body
  | .complete u _ => .complete id u

def Idle (s : State) : Prop := ∀ id, s.flights id = none

theorem start_idle (disk : Files) : Idle (start disk) := fun _ => rfl

/-- How a step changes the flight it is about. -/
inductive Moves (s : State) : Event → ℕ → Option Flight → Flight → Prop where
  | init (id : ℕ) (r : InitRequest) : Moves s (.init id r) id none (.init r fun _ => 0)
  | initHset (id : ℕ) (j : Fin 3) (r : InitRequest) (n : Fin 3 → ℕ) :
      Moves s (.initHset id j) id (some (.init r n)) (.init r (Function.update n j (n j+1)))
  | uppart (id : ℕ) (u c : Str) (body : Bytes) :
      Moves s (.uppart id u c body) id none (.uppart u c body .hget)
  | hget (id : ℕ) (ok : Bool) (u c : Str) (body : Bytes) :
      Moves s (.hget id ok) id (some (.uppart u c body .hget)) (.uppart u c body (.callback
        (stringValue (if ok then RedisHash.hget s.redis u filehashField else none))))
  | callback (id : ℕ) (io : Io) (u c : Str) (body : Bytes) (filehash : Str) :
      Moves s (.callback id io) id (some (.uppart u c body (.callback filehash)))
        (.uppart u c body (.hset 0))
  | hset (id : ℕ) (u c : Str) (body : Bytes) (n : ℕ) :
      Moves s (.hset id) id (some (.uppart u c body (.hset n))) (.uppart u c body (.hset (n+1)))
  | reply (id : ℕ) (u c : Str) (body : Bytes) (n : ℕ) :
      Moves s (.reply id) id (some (.uppart u c body (.hset n))) (.uppart u c body (.done n))
  | complete (id : ℕ) (u : Str) : Moves s (.complete id u) id none (.complete u .hgetall)
  | hgetall (id : ℕ) (listing : Option (List Entry)) (junk : ℤ) (u : Str)
      (hl : ∀ l, listing = some l → Listing (s.redis u) l) :
      Moves s (.hgetall id listing junk) id (some (.complete u .hgetall))
        (.complete u (completePhase junk (replyArray listing)))

section Moving

variable {h : Host} {s t : State} {e : Event}

/-- One step moves one flight and leaves the others. -/
theorem step_moves (hs : step h s e = some t) :
    ∃ id f, Moves s e id (s.flights id) f ∧
      ∀ i, t.flights i = if i = id then some f else s.flights i := by
  have hput : ∀ (s : State) (id : ℕ) (f : Flight) (i : ℕ),
      (s.put id f).flights i = if i = id then some f else s.flights i := by
    intro s id f i
    by_cases hi : i = id
    · simp [hi]
    · simp [hi, put_other]
  cases e with
  | init id r =>
    obtain ⟨hn,rfl⟩ := arrive_inv hs
    exact ⟨id,_,hn ▸ .init id r,hput s id _⟩
  | uppart id u c body =>
    obtain ⟨hn,rfl⟩ := arrive_inv hs
    exact ⟨id,_,hn ▸ .uppart id u c body,hput s id _⟩
  | complete id u =>
    obtain ⟨hn,rfl⟩ := arrive_inv hs
    exact ⟨id,_,hn ▸ .complete id u,hput s id _⟩
  | initHset id j =>
    obtain ⟨r,n,hf,-,rfl⟩ := initHset_inv hs
    exact ⟨id,_,hf ▸ .initHset id j r n,hput _ id _⟩
  | hget id ok =>
    obtain ⟨u,c,body,hf,rfl⟩ := hget_inv hs
    exact ⟨id,_,hf ▸ .hget id ok u c body,hput _ id _⟩
  | callback id io =>
    obtain ⟨u,c,body,fh,hf,rfl⟩ := callback_inv hs
    exact ⟨id,_,hf ▸ .callback id io u c body fh,hput _ id _⟩
  | hset id =>
    obtain ⟨u,c,body,n,hf,-,rfl⟩ := hset_inv hs
    exact ⟨id,_,hf ▸ .hset id u c body n,hput _ id _⟩
  | reply id =>
    obtain ⟨u,c,body,n,hf,rfl⟩ := reply_inv hs
    exact ⟨id,_,hf ▸ .reply id u c body n,hput _ id _⟩
  | hgetall id listing junk =>
    obtain ⟨u,hf,hl,rfl⟩ := hgetall_inv hs
    exact ⟨id,_,hf ▸ .hgetall id listing junk u hl,hput _ id _⟩

theorem flight_cases (hs : step h s e = some t) (id : ℕ) (f : Flight)
    (hf : t.flights id = some f) :
    s.flights id = some f ∨ ∃ o, s.flights id = o ∧ Moves s e id o f := by
  obtain ⟨i,g,hm,ht⟩ := step_moves hs
  rw [ht id] at hf
  split at hf
  · rename_i hi
    subst hi
    cases hf
    exact Or.inr ⟨_,rfl,hm⟩
  · exact Or.inl hf

theorem settled_keep (hs : step h s e = some t) (id : ℕ) (f : Flight)
    (hsettled : ∀ i g, ¬ Moves s e i (some f) g) (hf : s.flights id = some f) :
    t.flights id = some f := by
  obtain ⟨i,g,hm,ht⟩ := step_moves hs
  rw [ht id]
  split
  · rename_i hi
    subst hi
    rw [hf] at hm
    exact absurd hm (hsettled id g)
  · exact hf

end Moving

theorem moves_arrival (s : State) (e : Event) (id : ℕ) (o : Option Flight) (f : Flight)
    (hm : Moves s e id o f) :
    (o = none ∧ e = arrival id f) ∨
      ∃ f', o = some f' ∧ arrival id f' = arrival id f ∧ ∀ i f'', e ≠ arrival i f'' := by
  cases hm with
  | init => exact Or.inl ⟨rfl,rfl⟩
  | uppart => exact Or.inl ⟨rfl,rfl⟩
  | complete => exact Or.inl ⟨rfl,rfl⟩
  | initHset => exact Or.inr ⟨_,rfl,rfl,fun i f => by cases f <;> simp [arrival]⟩
  | hget => exact Or.inr ⟨_,rfl,rfl,fun i f => by cases f <;> simp [arrival]⟩
  | callback => exact Or.inr ⟨_,rfl,rfl,fun i f => by cases f <;> simp [arrival]⟩
  | hset => exact Or.inr ⟨_,rfl,rfl,fun i f => by cases f <;> simp [arrival]⟩
  | reply => exact Or.inr ⟨_,rfl,rfl,fun i f => by cases f <;> simp [arrival]⟩
  | hgetall => exact Or.inr ⟨_,rfl,rfl,fun i f => by cases f <;> simp [arrival]⟩

/-- One step moves one flight to a later phase, or lets one request arrive. -/
theorem step_flights (h : Host) (s t : State) (e : Event) (hs : step h s e = some t) :
    ∃ id f, (∀ i, t.flights i = if i = id then some f else s.flights i) ∧
      ((s.flights id = none ∧ e = arrival id f) ∨
        ∃ f', s.flights id = some f' ∧ arrival id f' = arrival id f ∧
          ∀ i f'', e ≠ arrival i f'') := by
  obtain ⟨id,f,hm,ht⟩ := step_moves hs
  exact ⟨id,f,ht,moves_arrival s e id _ f hm⟩

/-- The flights of a state, forgetting their phases, are its history. -/
def Records (hist : List Event) (s : State) : Prop :=
  ∀ id e, (∃ f, s.flights id = some f ∧ arrival id f = e) ↔ e ∈ hist ∧ ∃ f, arrival id f = e

theorem arrival_id (id id' : ℕ) (f f' : Flight) (h : arrival id f = arrival id' f') : id = id' := by
  cases f <;> cases f' <;> simp_all [arrival]

theorem records_step (h : Host) (hist : List Event) (s t : State) (e : Event)
    (hr : Records hist s) (hs : step h s e = some t) : Records (hist++[e]) t := by
  obtain ⟨id,f,ht,hcase⟩ := step_flights h s t e hs
  intro i e'
  by_cases hi : i = id
  · subst hi
    rw [ht i, if_pos rfl]
    rcases hcase with ⟨hn,rfl⟩ | ⟨f',hf',ha,hne⟩
    · constructor
      · rintro ⟨g,hg,rfl⟩
        cases hg
        exact ⟨by simp,f,rfl⟩
      · rintro ⟨hm,g,rfl⟩
        rcases List.mem_append.mp hm with hm | hm
        · obtain ⟨g',hg',-⟩ := (hr i _).mpr ⟨hm,g,rfl⟩
          rw [hn] at hg'
          cases hg'
        · exact ⟨f,rfl,(List.mem_singleton.mp hm).symm⟩
    · have key := hr i e'
      constructor
      · rintro ⟨g,hg,rfl⟩
        cases hg
        obtain ⟨hm,g,hg⟩ := key.mp ⟨f',hf',ha⟩
        exact ⟨List.mem_append_left _ hm,g,hg⟩
      · rintro ⟨hm,g,rfl⟩
        rcases List.mem_append.mp hm with hm | hm
        · obtain ⟨g',hg',hga⟩ := key.mpr ⟨hm,g,rfl⟩
          rw [hf'] at hg'
          cases hg'
          exact ⟨f,rfl,ha.symm.trans hga⟩
        · exact absurd (List.mem_singleton.mp hm).symm (hne i g)
  · rw [ht i, if_neg hi, hr i e']
    constructor
    · rintro ⟨hm,hf⟩
      exact ⟨List.mem_append_left _ hm,hf⟩
    · rintro ⟨hm,g,rfl⟩
      refine ⟨?_,g,rfl⟩
      rcases List.mem_append.mp hm with hm | hm
      · exact hm
      · have he := List.mem_singleton.mp hm
        rcases hcase with ⟨-,rfl⟩ | ⟨f',-,-,hne⟩
        · exact absurd (arrival_id i id g f he) hi
        · exact absurd he.symm (hne i g)

theorem run_records (h : Host) (s t : State) (es : List Event) (hi : Idle s)
    (hr : runs h s es = some t) : Records es t := by
  apply history_invariant Records (fun hist s e t hP _ => records_step h hist s t e hP)
    s t es _ (along_true s es) hr
  intro id e
  simp [hi id]

section Sent

variable {h : Host} {s t : State} {es : List Event}

theorem init_sent (hR : Records es t) (id : ℕ) (r : InitRequest) :
    .init id r ∈ es ↔ ∃ tries, t.flights id = some (.init r tries) := by
  constructor
  · intro hm
    obtain ⟨f,hf,ha⟩ := (hR id (.init id r)).mpr ⟨hm,.init r fun _ => 0,rfl⟩
    cases f <;> simp [arrival] at ha
    exact ⟨_,by rw [hf, ha]⟩
  · rintro ⟨tries,hf⟩
    exact ((hR id _).mp ⟨_,hf,rfl⟩).1

theorem uppart_sent (hR : Records es t) (id : ℕ) (u c : Str) (body : Bytes) :
    .uppart id u c body ∈ es ↔ ∃ phase, t.flights id = some (.uppart u c body phase) := by
  constructor
  · intro hm
    obtain ⟨f,hf,ha⟩ := (hR id (.uppart id u c body)).mpr ⟨hm,.uppart u c body .hget,rfl⟩
    cases f <;> simp [arrival] at ha
    obtain ⟨rfl,rfl,rfl⟩ := ha
    exact ⟨_,hf⟩
  · rintro ⟨phase,hf⟩
    exact ((hR id _).mp ⟨_,hf,rfl⟩).1

end Sent

def tries : UppartPhase → ℕ
  | .hset n => n
  | .done n => n
  | _ => 0

/-- The flight has applied the command at least once. -/
def Applied (v : Server) : Flight → HSet → Prop
  | .init r n, cmd => ∃ j, cmd = argsVec v r j ∧ 1 ≤ n j
  | .uppart u c _ phase, cmd => cmd = uppartHset u c ∧ 1 ≤ tries phase
  | .complete _ _, _ => False

def Landed (v : Server) (s : State) (cmd : HSet) : Prop :=
  ∃ id f, s.flights id = some f ∧ Applied v f cmd

theorem exists_put (Q : ℕ → Flight → Prop) (s : State) (id : ℕ) (f : Flight) (P : Prop)
    (hf : Q id f ↔ (∃ g, s.flights id = some g ∧ Q id g) ∨ P) :
    (∃ i g, (s.put id f).flights i = some g ∧ Q i g) ↔
      (∃ i g, s.flights i = some g ∧ Q i g) ∨ P := by
  constructor
  · rintro ⟨i,g,hg,ha⟩
    by_cases hi : i = id
    · subst hi
      rw [put_self] at hg
      cases hg
      rcases hf.mp ha with ⟨g',hg',ha'⟩ | hP
      · exact Or.inl ⟨i,g',hg',ha'⟩
      · exact Or.inr hP
    · rw [put_other s id i f hi] at hg
      exact Or.inl ⟨i,g,hg,ha⟩
  · rintro (⟨i,g,hg,ha⟩ | hP)
    · by_cases hi : i = id
      · subst hi
        exact ⟨i,f,put_self s i f,hf.mpr (Or.inl ⟨g,hg,ha⟩)⟩
      · exact ⟨i,g,by rw [put_other s id i f hi, hg],ha⟩
    · exact ⟨id,f,put_self s id f,hf.mpr (Or.inr hP)⟩

theorem landed_put (v : Server) (s : State) (id : ℕ) (f : Flight) (cmd : HSet) (P : Prop)
    (hf : Applied v f cmd ↔ (∃ g, s.flights id = some g ∧ Applied v g cmd) ∨ P) :
    Landed v (s.put id f) cmd ↔ Landed v s cmd ∨ P :=
  exists_put (fun _ g => Applied v g cmd) s id f P hf

theorem landed_put_same (v : Server) (s : State) (id : ℕ) (f : Flight) (cmd : HSet)
    (hf : Applied v f cmd ↔ ∃ g, s.flights id = some g ∧ Applied v g cmd) :
    Landed v (s.put id f) cmd ↔ Landed v s cmd := by
  simpa using landed_put v s id f cmd False (by simpa using hf)

theorem exists_tried_succ (P : Fin 3 → Prop) (n : Fin 3 → ℕ) (j : Fin 3) :
    (∃ i, P i ∧ 1 ≤ Function.update n j (n j+1) i) ↔ (∃ i, P i ∧ 1 ≤ n i) ∨ P j := by
  constructor
  · rintro ⟨i,hP,hi⟩
    by_cases hij : i = j
    · exact Or.inr (hij ▸ hP)
    · rw [Function.update_of_ne hij] at hi
      exact Or.inl ⟨i,hP,hi⟩
  · rintro (⟨i,hP,hi⟩ | hP)
    · refine ⟨i,hP,?_⟩
      by_cases hij : i = j
      · subst hij
        simp
      · rwa [Function.update_of_ne hij]
    · exact ⟨j,hP,by simp⟩

theorem applied_init_succ (v : Server) (r : InitRequest) (n : Fin 3 → ℕ) (j : Fin 3) (cmd : HSet) :
    Applied v (.init r (Function.update n j (n j+1))) cmd ↔
      Applied v (.init r n) cmd ∨ cmd = argsVec v r j :=
  exists_tried_succ (fun i => cmd = argsVec v r i) n j

/-- A step applies at most one command, and records it with its flight. -/
theorem step_redis (h : Host) (s t : State) (e : Event) (hs : step h s e = some t) :
    (t.redis = s.redis ∧ ∀ cmd, Landed h.server t cmd ↔ Landed h.server s cmd) ∨
    ∃ cmd : HSet, t.redis = RedisHash.hset s.redis cmd.key cmd.field cmd.value ∧
      ∀ cmd', Landed h.server t cmd' ↔ Landed h.server s cmd' ∨ cmd' = cmd := by
  cases e with
  | init id r =>
    obtain ⟨hn,rfl⟩ := arrive_inv hs
    exact Or.inl ⟨rfl,fun cmd => landed_put_same _ s id _ cmd (by simp [hn, Applied])⟩
  | uppart id u c body =>
    obtain ⟨hn,rfl⟩ := arrive_inv hs
    exact Or.inl ⟨rfl,fun cmd => landed_put_same _ s id _ cmd (by simp [hn, Applied, tries])⟩
  | complete id u =>
    obtain ⟨hn,rfl⟩ := arrive_inv hs
    exact Or.inl ⟨rfl,fun cmd => landed_put_same _ s id _ cmd (by simp [hn, Applied])⟩
  | initHset id j =>
    obtain ⟨r,n,hf,-,rfl⟩ := initHset_inv hs
    refine Or.inr ⟨argsVec h.server r j,rfl,fun cmd => ?_⟩
    apply landed_put _ (s.hset _) id _ cmd
    rw [applied_init_succ]
    simp [hf]
  | hget id ok =>
    obtain ⟨u,c,body,hf,rfl⟩ := hget_inv hs
    exact Or.inl ⟨rfl,fun cmd => landed_put_same _ s id _ cmd (by simp [hf, Applied, tries])⟩
  | callback id io =>
    obtain ⟨u,c,body,fh,hf,rfl⟩ := callback_inv hs
    exact Or.inl ⟨rfl,fun cmd => landed_put_same _ (s.write _ body io) id _ cmd
      (by simp [hf, Applied, tries])⟩
  | hset id =>
    obtain ⟨u,c,body,n,hf,-,rfl⟩ := hset_inv hs
    refine Or.inr ⟨uppartHset u c,rfl,fun cmd => ?_⟩
    apply landed_put _ (s.hset _) id _ cmd
    constructor
    · intro ha
      exact Or.inr ha.1
    · rintro (⟨g,hg,ha⟩ | rfl)
      · rw [hset_flights, hf] at hg
        cases hg
        exact ⟨ha.1,Nat.le_add_left 1 n⟩
      · exact ⟨rfl,Nat.le_add_left 1 n⟩
  | reply id =>
    obtain ⟨u,c,body,n,hf,rfl⟩ := reply_inv hs
    exact Or.inl ⟨rfl,fun cmd => landed_put_same _ s id _ cmd (by simp [hf, Applied, tries])⟩
  | hgetall id listing junk =>
    obtain ⟨u,hf,-,rfl⟩ := hgetall_inv hs
    exact Or.inl ⟨rfl,fun cmd => landed_put_same _ s id _ cmd (by simp [hf, Applied])⟩

/-- Under one key, the stored fields are those of the applied commands. -/
structure Faithful (v : Server) (k : Str) (s : State) : Prop where
  sound : ∀ f x, hget s.redis k f = some x → Landed v s ⟨k,f,x⟩
  stored : ∀ f x, Landed v s ⟨k,f,x⟩ → ∃ x', hget s.redis k f = some x'

theorem faithful_step (h : Host) (k : Str) (s t : State) (e : Event)
    (hF : Faithful h.server k s) (hs : step h s e = some t) : Faithful h.server k t := by
  rcases step_redis h s t e hs with ⟨hr,hl⟩ | ⟨cmd,hr,hl⟩
  · constructor
    · intro f x hx
      rw [hr] at hx
      exact (hl _).mpr (hF.sound f x hx)
    · intro f x hx
      rw [hr]
      exact hF.stored f x ((hl _).mp hx)
  · constructor
    · intro f x hx
      rw [hr, hget_hset] at hx
      split at hx
      · rename_i he
        obtain ⟨rfl,rfl⟩ := he
        cases hx
        exact (hl _).mpr (Or.inr rfl)
      · exact (hl _).mpr (Or.inl (hF.sound f x hx))
    · intro f x hx
      rw [hr, hget_hset]
      split
      · exact ⟨_,rfl⟩
      · rename_i hne
        rcases (hl _).mp hx with hx | hx
        · exact hF.stored f x hx
        · exact absurd ⟨congrArg HSet.key hx,congrArg HSet.field hx⟩ hne

theorem faithful_idle (v : Server) (k : Str) (s : State) (hi : Idle s) (hk : s.redis k = ∅) :
    Faithful v k s := by
  constructor
  · intro f x hx
    simp [hget, hk] at hx
  · rintro f x ⟨id,g,hg,-⟩
    rw [hi id] at hg
    cases hg

theorem run_faithful (h : Host) (k : Str) (s t : State) (es : List Event) (hi : Idle s)
    (hk : s.redis k = ∅) (hr : runs h s es = some t) : Faithful h.server k t :=
  run_invariant (Faithful h.server k) (fun s e t hF => faithful_step h k s t e hF) s t es
    (faithful_idle h.server k s hi hk) hr

/-- The label is a command of the flight that has been applied. -/
def Tried (e : Event) (id : ℕ) : Flight → Prop
  | .init _ n => ∃ j, e = .initHset id j ∧ 1 ≤ n j
  | .uppart _ _ _ phase => e = .hset id ∧ 1 ≤ tries phase
  | .complete _ _ => False

def IsCommand : Event → Prop
  | .initHset _ _ => True
  | .hset _ => True
  | _ => False

theorem redis_kept (h : Host) (s t : State) (e : Event) (hs : step h s e = some t)
    (hc : ¬ IsCommand e) : t.redis = s.redis := by
  cases e with
  | init id r => obtain ⟨-,rfl⟩ := arrive_inv hs; rfl
  | uppart id u c body => obtain ⟨-,rfl⟩ := arrive_inv hs; rfl
  | complete id u => obtain ⟨-,rfl⟩ := arrive_inv hs; rfl
  | initHset id j => exact absurd trivial hc
  | hget id ok => obtain ⟨u,c,body,-,rfl⟩ := hget_inv hs; rfl
  | callback id io => obtain ⟨u,c,body,fh,-,rfl⟩ := callback_inv hs; rfl
  | hset id => exact absurd trivial hc
  | reply id => obtain ⟨u,c,body,n,-,rfl⟩ := reply_inv hs; rfl
  | hgetall id listing junk => obtain ⟨u,-,-,rfl⟩ := hgetall_inv hs; rfl

theorem tried_init_succ (e : Event) (id : ℕ) (r : InitRequest) (n : Fin 3 → ℕ) (j : Fin 3) :
    Tried e id (.init r (Function.update n j (n j+1))) ↔
      Tried e id (.init r n) ∨ e = .initHset id j :=
  exists_tried_succ (fun i => e = .initHset id i) n j

theorem step_tried (h : Host) (s t : State) (e e' : Event) (hc : IsCommand e')
    (hs : step h s e = some t) :
    (∃ i g, t.flights i = some g ∧ Tried e' i g) ↔
      (∃ i g, s.flights i = some g ∧ Tried e' i g) ∨ e' = e := by
  cases e with
  | init id r =>
    obtain ⟨hn,rfl⟩ := arrive_inv hs
    apply exists_put (Tried e')
    cases e' <;> simp_all [Tried, IsCommand]
  | uppart id u c body =>
    obtain ⟨hn,rfl⟩ := arrive_inv hs
    apply exists_put (Tried e')
    cases e' <;> simp_all [Tried, IsCommand, tries]
  | complete id u =>
    obtain ⟨hn,rfl⟩ := arrive_inv hs
    apply exists_put (Tried e')
    cases e' <;> simp_all [Tried, IsCommand]
  | initHset id j =>
    obtain ⟨r,n,hf,-,rfl⟩ := initHset_inv hs
    apply exists_put (Tried e') (s.hset _)
    rw [tried_init_succ]
    simp [hf]
  | hget id ok =>
    obtain ⟨u,c,body,hf,rfl⟩ := hget_inv hs
    apply exists_put (Tried e')
    cases e' <;> simp_all [Tried, IsCommand, tries]
  | callback id io =>
    obtain ⟨u,c,body,fh,hf,rfl⟩ := callback_inv hs
    apply exists_put (Tried e') (s.write _ body io)
    cases e' <;> simp_all [Tried, IsCommand, tries]
  | hset id =>
    obtain ⟨u,c,body,n,hf,-,rfl⟩ := hset_inv hs
    apply exists_put (Tried e') (s.hset _)
    simp only [hset_flights, hf]
    constructor
    · intro ht
      exact Or.inr ht.1
    · rintro (⟨g,hg,ht⟩ | rfl)
      · cases hg
        exact ⟨ht.1,Nat.le_add_left 1 n⟩
      · exact ⟨rfl,Nat.le_add_left 1 n⟩
  | reply id =>
    obtain ⟨u,c,body,n,hf,rfl⟩ := reply_inv hs
    apply exists_put (Tried e')
    cases e' <;> simp_all [Tried, IsCommand, tries]
  | hgetall id listing junk =>
    obtain ⟨u,hf,-,rfl⟩ := hgetall_inv hs
    apply exists_put (Tried e')
    cases e' <;> simp_all [Tried, IsCommand]

theorem run_tried (h : Host) (s t : State) (es : List Event) (hi : Idle s)
    (hr : runs h s es = some t) (e : Event) (hc : IsCommand e) :
    e ∈ es ↔ ∃ i g, t.flights i = some g ∧ Tried e i g := by
  have h0 : e ∈ ([] : List Event) ↔ ∃ i g, s.flights i = some g ∧ Tried e i g := by
    simp [hi _]
  refine history_invariant
    (fun hist t => e ∈ hist ↔ ∃ i g, t.flights i = some g ∧ Tried e i g)
    (fun hist s e' t hP _ hs => ?_) s t es h0 (along_true s es) hr
  rw [step_tried h s t e' e hc hs, ← hP]
  simp

section Commands

variable {h : Host} {s t : State} {es : List Event}

theorem initHset_mem_iff (hi : Idle s) (hr : runs h s es = some t) (id : ℕ) (j : Fin 3) :
    .initHset id j ∈ es ↔ ∃ r n, t.flights id = some (.init r n) ∧ 1 ≤ n j := by
  rw [run_tried h s t es hi hr (.initHset id j) trivial]
  constructor
  · rintro ⟨i,g,hg,ht⟩
    cases g with
    | init r n =>
      obtain ⟨j',he,hn⟩ := ht
      cases he
      exact ⟨r,n,hg,hn⟩
    | uppart u c body phase => exact absurd ht.1 (by simp)
    | complete u phase => exact ht.elim
  · rintro ⟨r,n,hf,hn⟩
    exact ⟨id,_,hf,j,rfl,hn⟩

theorem initHset_tried (hi : Idle s) (hr : runs h s es = some t) (id : ℕ) (j : Fin 3)
    (r : InitRequest) (n : Fin 3 → ℕ) (hf : t.flights id = some (.init r n)) :
    .initHset id j ∈ es ↔ 1 ≤ n j := by
  rw [initHset_mem_iff hi hr id j]
  constructor
  · rintro ⟨r',n',hf',hn⟩
    rw [hf] at hf'
    cases hf'
    exact hn
  · exact fun hn => ⟨r,n,hf,hn⟩

theorem hset_tried (hi : Idle s) (hr : runs h s es = some t) (id : ℕ) (u c : Str)
    (body : Bytes) (phase : UppartPhase) (hf : t.flights id = some (.uppart u c body phase)) :
    .hset id ∈ es ↔ 1 ≤ tries phase := by
  rw [run_tried h s t es hi hr (.hset id) trivial]
  constructor
  · rintro ⟨i,g,hg,ht⟩
    cases g with
    | init r' n' =>
      obtain ⟨j',he,-⟩ := ht
      cases he
    | uppart u' c' body' phase' =>
      obtain ⟨he,hn⟩ := ht
      cases he
      rw [hf] at hg
      cases hg
      exact hn
    | complete u phase => exact ht.elim
  · intro hn
    exact ⟨id,_,hf,rfl,hn⟩

end Commands

theorem progressField_injective : Function.Injective progressField :=
  fun _ _ h => List.append_cancel_left h

theorem progressField_take (c : Str) : (progressField c).take 7 = chkidxText :=
  List.take_left' (by decide)

theorem take_progressField (f : Str) (h : f.take 7 = chkidxText) :
    f = progressField (f.drop 7) := by
  rw [progressField, ← h, List.take_append_drop]

def metaField : Fin 3 → Str
  | 0 => chunkcountField
  | 1 => filehashField
  | 2 => filesizeField

theorem argsVec_field (v : Server) (r : InitRequest) (j : Fin 3) :
    (argsVec v r j).field = metaField j := by
  fin_cases j <;> rfl

theorem metaField_injective : Function.Injective metaField := by
  decide

theorem metaField_take (j : Fin 3) : (metaField j).take 7 ≠ chkidxText := by
  revert j
  decide

theorem argsVec_key (v : Server) (r : InitRequest) (j : Fin 3) :
    (argsVec v r j).key = initKey v r := by
  fin_cases j <;> rfl

/-- What day08 stores under, it never returns. -/
theorem initKey_ne_uploadID (r r' : InitRequest) :
    initKey .day08 r ≠ uploadID .day08 r'.time := by
  intro he
  have hh : some 'M' = some 'l' := congrArg List.head? he
  exact absurd hh (by decide)

theorem landed_meta (v : Server) (s : State) (k x : Str) (j : Fin 3)
    (h : Landed v s ⟨k,metaField j,x⟩) :
    ∃ id r' n, s.flights id = some (.init r' n) ∧ initKey v r' = k ∧
      x = (argsVec v r' j).value ∧ 1 ≤ n j := by
  obtain ⟨id,f,hf,ha⟩ := h
  cases f with
  | init r' n =>
    obtain ⟨i,he,hn⟩ := ha
    have hij : j = i := metaField_injective (by rw [← argsVec_field v r' i, ← he])
    subst hij
    exact ⟨id,r',n,hf,by rw [← argsVec_key v r' j, ← he],congrArg HSet.value he,hn⟩
  | uppart u c body phase =>
    have he : metaField j = progressField c := congrArg HSet.field ha.1
    exact absurd (he ▸ progressField_take c) (metaField_take j)
  | complete u phase => exact ha.elim

theorem landed_progress (v : Server) (s : State) (k c x : Str)
    (h : Landed v s ⟨k,progressField c,x⟩) :
    ∃ id body phase, s.flights id = some (.uppart k c body phase) ∧ 1 ≤ tries phase := by
  obtain ⟨id,f,hf,ha⟩ := h
  cases f with
  | init r n =>
    obtain ⟨i,he,-⟩ := ha
    have hm : progressField c = metaField i := (congrArg HSet.field he).trans (argsVec_field v r i)
    exact absurd (hm ▸ progressField_take c) (metaField_take i)
  | uppart u c' body phase =>
    obtain ⟨he,hn⟩ := ha
    have hk : k = u := congrArg HSet.key he
    have hc : c = c' := progressField_injective (congrArg HSet.field he)
    subst hk hc
    exact ⟨id,body,phase,hf,hn⟩
  | complete u phase => exact ha.elim

end WdHttp.MuploadHistory
