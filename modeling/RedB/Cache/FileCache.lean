import RedB.Theory.Actions
import Mathlib.Data.Int.Notation

/-!
# The file cache

A worker thread takes jobs from a queue, which other threads fill, and flushes the block caches
of their tables. It works in rounds: it waits until there is a job or it has been told to stop,
and a round ends when the queue is empty, but also at a job of a table that there is not. When
it has been told to stop it does one more round and returns.

A round holds the lock of the file cache, and so do `add_job`, `kill`, `get_block_cache` and
`drop_block_cache`; files come and go at any time. A job that was added before the file cache is
told to stop is followed by a flush of its table, if the last round does not end at a missing
table in front of other such jobs (`run_flushes`).
-/

namespace RedB.Cache

open Actions

/-- `file_cache::TYPE_KILL` -/
def TYPE_KILL : ℤ := 0

/-- `file_cache::TYPE_FLUSH` -/
def TYPE_FLUSH : ℤ := 7

/-- `file_cache::TYPE_PURGE` -/
def TYPE_PURGE : ℤ := 15

/-- A job: its type, and a table or `kill`. -/
structure Job where
  type : ℤ
  name : String
deriving DecidableEq, Repr

/-- The jobs that end a round. -/
def Job.isKill (j : Job) : Bool := j.type = TYPE_KILL || j.name = "kill"

/-- Where the worker is in `file_cache::run`. -/
inductive Pc where
  /-- At the head of the loop, without the lock. -/
  | head
  /-- Waits for a job. -/
  | wait
  /-- Calls `do_work`. -/
  | ready
  /-- In `do_work`, with the lock. -/
  | work
  /-- Calls `do_work` for the last time. -/
  | last
  /-- In `do_work` for the last time, with the lock. -/
  | lastWork
  | returned
deriving DecidableEq, Repr

/-- The file cache, the worker and the files. -/
structure FileCache where
  /-- `m_job_q` -/
  jobQ : List Job
  /-- `m_flag` -/
  flag : Bool
  pc : Pc
  /-- `m_cache` -/
  cache : List String
  /-- `m_schema`, of the schema manager. -/
  schemas : List String
  /-- The schemas on disk. -/
  json : List String
  /-- The data files. -/
  data : List String
  /-- The tables whose block caches have been flushed, in the order of the flushes. -/
  flushed : List String
deriving DecidableEq, Repr

/-- What the worker and others do. -/
inductive Action where
  | addJob (type : ℤ) (name : String)
  | kill
  | getBlockCache (name : String)
  | dropBlockCache (name : String)
  /-- A table is made. -/
  | create (name : String)
  | unlinkData (name : String)
  | unlinkJson (name : String)
  /-- The next step of the worker. -/
  | work
deriving DecidableEq, Repr

namespace FileCache

/-- The worker holds the lock. -/
def locked (s : FileCache) : Bool := s.pc = .work || s.pc = .lastWork

/-- `file_cache::get_block_cache_no_lock` and `file_cache::load_block_cache`: whether there is a
block cache, and what has been loaded. -/
def getBlockCacheNoLock (s : FileCache) (name : String) : Bool × FileCache :=
  if name ∈ s.cache then (true, s)
  else if name ∈ s.schemas ∨ name ∈ s.json then
    if name ∈ s.data then (true, { s with schemas := name :: s.schemas, cache := name :: s.cache })
    else (false, { s with schemas := name :: s.schemas })
  else (false, s)

/-- There is a table: its block cache is found or loaded. -/
def HasTable (s : FileCache) (name : String) : Prop := (s.getBlockCacheNoLock name).1 = true

instance (s : FileCache) (name : String) : Decidable (s.HasTable name) := inferInstanceAs (Decidable (_ = _))

/-- A job that `do_work` has taken from the queue, and where the worker is if it ends the round. -/
def doJob (s : FileCache) (j : Job) (behind : Pc) : FileCache :=
  if j.isKill then { s with pc := behind }
  else
    match s.getBlockCacheNoLock j.name with
    | (false, s) => { s with pc := behind }
    -- `TYPE_PURGE` falls through
    | (true, s) => if j.type = TYPE_PURGE ∨ j.type = TYPE_FLUSH then { s with flushed := s.flushed ++ [j.name] } else s

/-- A turn of the loop of `file_cache::do_work`. -/
def doWork (s : FileCache) (behind : Pc) : FileCache :=
  match s.jobQ with
  | [] => { s with pc := behind }
  | j :: q => doJob { s with jobQ := q } j behind

/-- A step of `file_cache::run`. -/
def worker (s : FileCache) : Option FileCache :=
  match s.pc with
  | .head => some { s with pc := if s.flag then .wait else .last }
  | .wait => if !s.flag || s.jobQ ≠ [] then some { s with pc := .ready } else none
  | .ready => some { s with pc := .work }
  | .work => some (s.doWork .head)
  | .last => some { s with pc := .lastWork }
  | .lastWork => some (s.doWork .returned)
  | .returned => none

/-- An action, nothing if it has to wait. -/
def step (s : FileCache) : Action → Option FileCache
  | .addJob type name => if s.locked then none else some { s with jobQ := s.jobQ ++ [⟨type, name⟩] }
  | .kill => if s.locked then none else some { s with jobQ := s.jobQ ++ [⟨TYPE_KILL, "kill"⟩], flag := false }
  | .getBlockCache name => if s.locked then none else some (s.getBlockCacheNoLock name).2
  | .dropBlockCache name => if s.locked then none else some { s with cache := s.cache.filter fun n => n ≠ name }
  | .create name => some { s with json := name :: s.json, data := name :: s.data }
  | .unlinkData name => some { s with data := s.data.filter fun n => n ≠ name }
  | .unlinkJson name => some { s with json := s.json.filter fun n => n ≠ name }
  | .work => s.worker

/-- The file cache when the worker starts. -/
def start (json data : List String) : FileCache :=
  { jobQ := [], flag := true, pc := .head, cache := [], schemas := [], json := json, data := data, flushed := [] }

end FileCache

open FileCache

/-- A job that flushes, and is not behind a kill job, is in the queue. -/
def waiting (s : FileCache) (name : String) : Prop := (⟨TYPE_FLUSH, name⟩ : Job) ∈ s.jobQ.takeWhile fun j => !j.isKill

/-- Every job to flush a table that has been added before the file cache is told to stop is
followed by a flush of the table, if there is the table all the time. -/
def FlushesAll (s : FileCache) (as : List Action) (s' : FileCache) : Prop :=
  ∀ pre name post t, as = pre ++ .addJob TYPE_FLUSH name :: post → .kill ∉ pre → run step s pre = some t →
    Throughout step (fun u => u.HasTable name) t (.addJob TYPE_FLUSH name :: post) → ∃ l, s'.flushed = t.flushed ++ l ∧ name ∈ l

/-- Jobs that are added are no kill jobs, and the last round does not end at a missing table in
front of a job to flush that there is before the next kill job. -/
def Allowed (s : FileCache) : Action → Prop
  | .addJob type name => (⟨type, name⟩ : Job).isKill = false
  | .work => s.pc = .lastWork → ∀ j q, s.jobQ = j :: q → j.isKill = false → ¬s.HasTable j.name →
      ∀ j' ∈ q.takeWhile fun j => !j.isKill, j'.type ≠ TYPE_FLUSH
  | _ => True

/-! ### Jobs that are done -/

theorem hasTable_iff {s : FileCache} {name : String} :
    s.HasTable name ↔ name ∈ s.cache ∨ (name ∈ s.schemas ∨ name ∈ s.json) ∧ name ∈ s.data := by
  unfold HasTable getBlockCacheNoLock
  split
  · rename_i h
    simp [h]
  · rename_i h
    split
    · rename_i h'
      split <;> rename_i h'' <;> simp [h, h', h'']
    · rename_i h'
      simp [h, h']

/-- Loading a block cache leaves the queue, the worker and what has been flushed. -/
theorem getBlockCacheNoLock_same (s : FileCache) (name : String) : (s.getBlockCacheNoLock name).2.jobQ = s.jobQ ∧
    (s.getBlockCacheNoLock name).2.flag = s.flag ∧ (s.getBlockCacheNoLock name).2.pc = s.pc ∧
      (s.getBlockCacheNoLock name).2.flushed = s.flushed := by
  unfold getBlockCacheNoLock
  split
  · exact ⟨rfl, rfl, rfl, rfl⟩
  · split
    · split <;> exact ⟨rfl, rfl, rfl, rfl⟩
    · exact ⟨rfl, rfl, rfl, rfl⟩

/-- What a job does. -/
structure Does (s : FileCache) (j : Job) (behind : Pc) (s' : FileCache) : Prop where
  jobQ : s'.jobQ = s.jobQ
  flag : s'.flag = s.flag
  /-- The round goes on after a job of a table that there is. -/
  pc : s'.pc = if j.isKill = false ∧ s.HasTable j.name then s.pc else behind
  flushed : s'.flushed = s.flushed ++
    if (j.isKill = false ∧ s.HasTable j.name) ∧ (j.type = TYPE_PURGE ∨ j.type = TYPE_FLUSH) then [j.name] else []

theorem doJob_does (s : FileCache) (j : Job) (behind : Pc) : Does s j behind (s.doJob j behind) := by
  rw [doJob]
  split
  · rename_i hk
    have hn : ¬(j.isKill = false ∧ s.HasTable j.name) := fun h => by rw [h.1] at hk; cases hk
    refine ⟨rfl, rfl, (if_neg hn).symm, ?_⟩
    rw [if_neg fun h => hn h.1, List.append_nil]
  · rename_i hk
    obtain ⟨hq, hf, hpc, hfl⟩ := getBlockCacheNoLock_same s j.name
    cases he : s.getBlockCacheNoLock j.name with
    | mk found s' =>
      rw [he] at hq hf hpc hfl
      cases found with
      | false =>
        have hn : ¬(j.isKill = false ∧ s.HasTable j.name) := fun h => by
          have := h.2
          rw [HasTable, he] at this
          cases this
        refine ⟨hq, hf, (if_neg hn).symm, ?_⟩
        rw [if_neg fun h => hn h.1, List.append_nil]
        exact hfl
      | true =>
        have hy : j.isKill = false ∧ s.HasTable j.name := ⟨by simpa using hk, by rw [HasTable, he]⟩
        dsimp only
        split
        · rename_i ht
          refine ⟨hq, hf, by rw [if_pos hy]; exact hpc, ?_⟩
          rw [if_pos ⟨hy, ht⟩]
          exact congrArg (· ++ [j.name]) hfl
        · rename_i ht
          refine ⟨hq, hf, by rw [if_pos hy]; exact hpc, ?_⟩
          rw [if_neg fun h => ht h.2, List.append_nil]
          exact hfl

/-- A turn of a round. -/
theorem doWork_cases (s : FileCache) (behind : Pc) : s.jobQ = [] ∧ s.doWork behind = { s with pc := behind } ∨
    ∃ j q, s.jobQ = j :: q ∧ Does { s with jobQ := q } j behind (s.doWork behind) := by
  rw [doWork]
  split
  · rename_i h
    exact Or.inl ⟨h, rfl⟩
  · rename_i j q h
    exact Or.inr ⟨j, q, h, doJob_does _ j behind⟩

/-- What others do leaves the worker and what has been flushed, and no job is taken. -/
structure Others (s s' : FileCache) : Prop where
  pc : s'.pc = s.pc
  flushed : s'.flushed = s.flushed
  jobQ : s.jobQ <+: s'.jobQ

theorem step_others {s s' : FileCache} {a : Action} (ha : a ≠ .work) (h : step s a = some s') : Others s s' := by
  cases a with
  | work => exact absurd rfl ha
  | addJob type name =>
    rw [step] at h
    split at h
    · cases h
    · obtain rfl := Option.some.inj h
      exact ⟨rfl, rfl, List.prefix_append ..⟩
  | kill =>
    rw [step] at h
    split at h
    · cases h
    · obtain rfl := Option.some.inj h
      exact ⟨rfl, rfl, List.prefix_append ..⟩
  | getBlockCache name =>
    rw [step] at h
    split at h
    · cases h
    · obtain rfl := Option.some.inj h
      obtain ⟨hq, -, hpc, hfl⟩ := getBlockCacheNoLock_same s name
      exact ⟨hpc, hfl, hq ▸ List.prefix_rfl⟩
  | dropBlockCache name =>
    rw [step] at h
    split at h
    · cases h
    · obtain rfl := Option.some.inj h
      exact ⟨rfl, rfl, List.prefix_rfl⟩
  | create name =>
    obtain rfl := Option.some.inj h
    exact ⟨rfl, rfl, List.prefix_rfl⟩
  | unlinkData name =>
    obtain rfl := Option.some.inj h
    exact ⟨rfl, rfl, List.prefix_rfl⟩
  | unlinkJson name =>
    obtain rfl := Option.some.inj h
    exact ⟨rfl, rfl, List.prefix_rfl⟩

/-! ### Jobs before the kill -/

/-- Before the file cache is told to stop there are no kill jobs, and the last round is not near. -/
structure Running (s : FileCache) : Prop where
  flag : s.flag = true
  noKill : ∀ j ∈ s.jobQ, j.isKill = false
  pc : s.pc ≠ .last ∧ s.pc ≠ .lastWork ∧ s.pc ≠ .returned

theorem running_start (json data : List String) : Running (start json data) :=
  ⟨rfl, fun _ h => absurd h List.not_mem_nil, nofun, nofun, nofun⟩

theorem running_worker {s s' : FileCache} (hr : Running s) (h : s.worker = some s') : Running s' := by
  obtain ⟨hflag, hkill, hlast, hlastWork, hret⟩ := hr
  rw [worker] at h
  split at h
  · obtain rfl := Option.some.inj h
    exact ⟨hflag, hkill, by simp [hflag]⟩
  · split at h
    · obtain rfl := Option.some.inj h
      exact ⟨hflag, hkill, nofun, nofun, nofun⟩
    · cases h
  · obtain rfl := Option.some.inj h
    exact ⟨hflag, hkill, nofun, nofun, nofun⟩
  · rename_i hpc
    obtain rfl := Option.some.inj h
    rcases doWork_cases s .head with ⟨-, he⟩ | ⟨j, q, hq, hd⟩
    · rw [he]
      exact ⟨hflag, hkill, nofun, nofun, nofun⟩
    · refine ⟨hd.flag.trans hflag, fun j' hj' => ?_, ?_⟩
      · rw [hd.jobQ] at hj'
        exact hkill j' (hq ▸ List.mem_cons_of_mem _ hj')
      · rw [hd.pc, hpc]
        split <;> decide
  · rename_i hpc
    exact absurd hpc hlast
  · rename_i hpc
    exact absurd hpc hlastWork
  · cases h

theorem running_step {s s' : FileCache} {a : Action} (hr : Running s) (ha : a ≠ .kill) (hok : Allowed s a) (h : step s a = some s') :
    Running s' := by
  cases a with
  | work => exact running_worker hr h
  | kill => exact absurd rfl ha
  | addJob type name =>
    rw [step] at h
    split at h
    · cases h
    · obtain rfl := Option.some.inj h
      refine ⟨hr.flag, fun j hj => ?_, hr.pc⟩
      rcases List.mem_append.mp hj with hj | hj
      · exact hr.noKill j hj
      · rw [List.mem_singleton.mp hj]
        exact hok
  | getBlockCache name =>
    rw [step] at h
    split at h
    · cases h
    · obtain rfl := Option.some.inj h
      obtain ⟨hq, hf, hpc, -⟩ := getBlockCacheNoLock_same s name
      exact ⟨hf.trans hr.flag, hq ▸ hr.noKill, hpc ▸ hr.pc⟩
  | dropBlockCache name =>
    rw [step] at h
    split at h
    · cases h
    · obtain rfl := Option.some.inj h
      exact ⟨hr.flag, hr.noKill, hr.pc⟩
  | create name =>
    obtain rfl := Option.some.inj h
    exact ⟨hr.flag, hr.noKill, hr.pc⟩
  | unlinkData name =>
    obtain rfl := Option.some.inj h
    exact ⟨hr.flag, hr.noKill, hr.pc⟩
  | unlinkJson name =>
    obtain rfl := Option.some.inj h
    exact ⟨hr.flag, hr.noKill, hr.pc⟩

/-! ### A job until it is done -/

/-- A table has been flushed since, or its job is in the queue and the worker will come to it. -/
def Pending (flushed : List String) (name : String) (s : FileCache) : Prop :=
  ∃ l, s.flushed = flushed ++ l ∧ (name ∈ l ∨ waiting s name ∧ s.pc ≠ .returned)

theorem waiting_mono {s s' : FileCache} {name : String} (h : s.jobQ <+: s'.jobQ) (hw : waiting s name) : waiting s' name := by
  obtain ⟨q, hq⟩ := h
  rw [waiting, ← hq]
  have hsub : ∀ l l' : List Job, ∀ j ∈ l.takeWhile fun j => !j.isKill, j ∈ (l ++ l').takeWhile fun j => !j.isKill := by
    intro l l' j hj
    induction l with
    | nil => exact absurd hj List.not_mem_nil
    | cons k l ih =>
      rw [List.takeWhile_cons] at hj
      rw [List.cons_append, List.takeWhile_cons]
      split at hj
      · rename_i hk
        rw [if_pos hk]
        rcases List.mem_cons.mp hj with rfl | hj
        · exact List.mem_cons_self
        · exact List.mem_cons_of_mem _ (ih hj)
      · exact absurd hj List.not_mem_nil
  exact hsub _ _ _ hw

/-- The job, or another one, is at the head of the queue. -/
theorem waiting_cons {s : FileCache} {name : String} {j : Job} {q : List Job} (hq : s.jobQ = j :: q) (hw : waiting s name) :
    j.isKill = false ∧ (j = ⟨TYPE_FLUSH, name⟩ ∨ (⟨TYPE_FLUSH, name⟩ : Job) ∈ q.takeWhile fun j => !j.isKill) := by
  rw [waiting, hq, List.takeWhile_cons] at hw
  split at hw
  · rename_i hk
    exact ⟨by simpa using hk, (List.mem_cons.mp hw).imp_left Eq.symm⟩
  · exact absurd hw List.not_mem_nil

/-- A turn of a round flushes the table, or its job stays; the round does not end at the job. -/
theorem pending_doWork {s : FileCache} {flushed : List String} {name : String} {behind : Pc} (hp : Pending flushed name s)
    (he : s.HasTable name) (hbehind : behind ≠ .returned ∨ ∀ j q, s.jobQ = j :: q → j.isKill = false → ¬s.HasTable j.name →
      ∀ j' ∈ q.takeWhile fun j => !j.isKill, j'.type ≠ TYPE_FLUSH) : Pending flushed name (s.doWork behind) := by
  obtain ⟨l, hl, hp⟩ := hp
  rcases doWork_cases s behind with ⟨hnil, hd⟩ | ⟨j, q, hq, hd⟩
  · rw [hd]
    refine ⟨l, hl, hp.imp_right fun ⟨hw, _⟩ => ?_⟩
    rw [waiting, hnil] at hw
    exact absurd hw List.not_mem_nil
  · have htable : ∀ n, FileCache.HasTable { s with jobQ := q } n ↔ s.HasTable n := fun n => by rw [hasTable_iff, hasTable_iff]
    have hflushed := hd.flushed
    refine ⟨_, (hflushed.trans (congrArg (· ++ _) hl)).trans (List.append_assoc ..), ?_⟩
    rcases hp with hp | ⟨hw, hpc⟩
    · exact Or.inl (List.mem_append_left _ hp)
    · obtain ⟨hk, hw⟩ := waiting_cons hq hw
      rcases hw with rfl | hw
      · refine Or.inl (List.mem_append_right _ ?_)
        rw [if_pos ⟨⟨hk, (htable name).mpr he⟩, Or.inr rfl⟩]
        exact List.mem_singleton_self _
      · refine Or.inr ⟨by rw [waiting, hd.jobQ]; exact hw, ?_⟩
        rw [hd.pc]
        split
        · exact hpc
        · rename_i hn
          rcases hbehind with hb | hb
          · exact hb
          · exact absurd rfl (hb j q hq hk (fun hj => hn ⟨hk, (htable j.name).mpr hj⟩) _ hw)

theorem pending_step {s s' : FileCache} {a : Action} {flushed : List String} {name : String} (hp : Pending flushed name s)
    (he : s.HasTable name) (hok : Allowed s a) (h : step s a = some s') : Pending flushed name s' := by
  by_cases ha : a = .work
  · subst ha
    have hpc : ∀ {pc : Pc}, pc ≠ .returned → Pending flushed name { s with pc := pc } := fun hpc =>
      ⟨hp.choose, hp.choose_spec.1, hp.choose_spec.2.imp_right fun hw => ⟨hw.1, hpc⟩⟩
    rw [step, worker] at h
    split at h
    · obtain rfl := Option.some.inj h
      exact hpc (by split <;> nofun)
    · split at h
      · obtain rfl := Option.some.inj h
        exact hpc nofun
      · cases h
    · obtain rfl := Option.some.inj h
      exact hpc nofun
    · obtain rfl := Option.some.inj h
      exact pending_doWork hp he (Or.inl nofun)
    · obtain rfl := Option.some.inj h
      exact hpc nofun
    · rename_i hlast
      obtain rfl := Option.some.inj h
      exact pending_doWork hp he (Or.inr (hok hlast))
    · cases h
  · obtain ⟨hpc, hfl, hq⟩ := step_others ha h
    obtain ⟨l, hl, hp⟩ := hp
    exact ⟨l, hfl.trans hl, hp.imp_right fun ⟨hw, hpc'⟩ => ⟨waiting_mono hq hw, hpc ▸ hpc'⟩⟩

theorem pending_run {s s' : FileCache} {as : List Action} {flushed : List String} {name : String} (hp : Pending flushed name s)
    (he : Throughout step (fun u => u.HasTable name) s as) (hok : Always step Allowed s as) (h : run step s as = some s') :
    Pending flushed name s' := by
  induction as generalizing s with
  | nil => exact Option.some.inj h ▸ hp
  | cons a as ih =>
    obtain ⟨t, ht, h'⟩ := run_cons.mp h
    exact ih (pending_step hp he.start hok.head ht) (he.tail ht) (hok.tail ht) h'

/-- The worker has returned: no job of a table that there is has been lost, if no action of the
run was one that loses it. -/
theorem run_flushes {json data : List String} {as : List Action} {s : FileCache} (hok : Always step Allowed (start json data) as)
    (h : run step (start json data) as = some s) (hs : s.pc = .returned) : FlushesAll (start json data) as s := by
  rintro pre name post t rfl hkill ht htable
  have hrunning : Running t := @run_invariant _ _ _ _ _ Running (fun s a => Allowed s a ∧ a ≠ .kill) _ (fun _ _ _ hr hok' hstep => running_step hr hok'.2 hok'.1 hstep) (running_start json data) (fun pre' a post' s' hpre hs' => by
      refine ⟨hok pre' a (post' ++ .addJob TYPE_FLUSH name :: post) s' (by rw [hpre, List.append_assoc, List.cons_append]) hs', ?_⟩
      rintro rfl
      exact hkill (hpre ▸ List.mem_append_right _ List.mem_cons_self)) ht
  obtain ⟨t', ht', hrest⟩ := run_append.mp h
  obtain rfl := Option.some.inj (ht.symm.trans ht')
  obtain ⟨u, hu, hrun⟩ := run_cons.mp hrest
  have hallowed := hok.right ht
  have hpending : Pending t.flushed name u := by
    have hjob := hallowed.head
    rw [step] at hu
    split at hu
    · cases hu
    · obtain rfl := Option.some.inj hu
      refine ⟨[], (List.append_nil _).symm, Or.inr ⟨?_, hrunning.pc.2.2⟩⟩
      rw [waiting, List.takeWhile_append_of_pos fun j hj => by rw [hrunning.noKill j hj]; rfl]
      refine List.mem_append_right _ ?_
      rw [List.takeWhile_cons, if_pos (by rw [hjob]; rfl)]
      exact List.mem_cons_self
  obtain ⟨l, hl, hp⟩ := pending_run hpending (htable.tail hu) (hallowed.tail hu) hrun
  exact ⟨l, hl, hp.resolve_right fun hw => hw.2 hs⟩

/-- A job, the kill, and the last round. -/
def flushAndStop : List Action := [.addJob TYPE_FLUSH "d.t", .kill, .work, .work, .work, .work]

theorem run_flushes_flushAndStop : ∃ s, run step (start ["d.t"] ["d.t"]) flushAndStop = some s ∧
    FlushesAll (start ["d.t"] ["d.t"]) flushAndStop s := by
  have hok : Always step Allowed (start ["d.t"] ["d.t"]) flushAndStop := by
    refine always_cons (by decide : Job.isKill _ = false) fun _ h₁ => always_cons trivial fun _ h₂ => always_cons ?_ fun _ h₃ =>
      always_cons ?_ fun _ h₄ => always_cons ?_ fun _ h₅ => always_cons ?_ fun _ _ => always_nil
    all_goals
      obtain rfl := Option.some.inj h₁
      obtain rfl := Option.some.inj h₂
    · intro h
      cases h
    · obtain rfl := Option.some.inj h₃
      intro h
      cases h
    · obtain rfl := Option.some.inj h₃
      obtain rfl := Option.some.inj h₄
      intro _ j q hq hk hn
      obtain ⟨rfl, -⟩ := List.cons.inj hq
      exact absurd (by decide) hn
    · obtain rfl := Option.some.inj h₃
      obtain rfl := Option.some.inj h₄
      obtain rfl := Option.some.inj h₅
      intro _ j q hq hk
      obtain ⟨rfl, -⟩ := List.cons.inj hq
      exact absurd hk (by decide)
  exact ⟨_, rfl, run_flushes hok rfl rfl⟩

/-- A job of a missing table, a job, the kill, and the last round. -/
def missingAndStop : List Action :=
  [.addJob TYPE_FLUSH "d.x", .addJob TYPE_FLUSH "d.t", .kill, .work, .work, .work]

/-- The last round ends at the missing table. -/
theorem job_lost : ¬∀ (json data : List String) (as : List Action) (s : FileCache), run step (start json data) as = some s →
    s.pc = .returned → FlushesAll (start json data) as s := by
  intro h
  have hall := h ["d.t"] ["d.t"] missingAndStop _ rfl rfl
  have htable : ∀ t, run step (start ["d.t"] ["d.t"]) [.addJob TYPE_FLUSH "d.x"] = some t →
      Throughout step (fun u => u.HasTable "d.t") t [.addJob TYPE_FLUSH "d.t", .kill, .work, .work, .work] := by
    intro t ht
    obtain rfl := Option.some.inj ht
    refine throughout_cons (by decide) fun _ h₁ => ?_
    obtain rfl := Option.some.inj h₁
    refine throughout_cons (by decide) fun _ h₂ => ?_
    obtain rfl := Option.some.inj h₂
    refine throughout_cons (by decide) fun _ h₃ => ?_
    obtain rfl := Option.some.inj h₃
    refine throughout_cons (by decide) fun _ h₄ => ?_
    obtain rfl := Option.some.inj h₄
    refine throughout_cons (by decide) fun _ h₅ => ?_
    obtain rfl := Option.some.inj h₅
    exact throughout_nil (by decide)
  obtain ⟨l, hl, hm⟩ := hall [.addJob TYPE_FLUSH "d.x"] "d.t" [.kill, .work, .work, .work] _ rfl (by decide) rfl (htable _ rfl)
  obtain rfl : l = [] := hl.symm
  exact absurd hm List.not_mem_nil

end RedB.Cache
