import MagiskNative.Lib.Machine

/-!
# The thread pool

Callers put a task into the one slot of the pool, and workers take it out. Every step here is one stretch
of code under the lock of the pool. Which thread `notify_one` wakes is part of the action, as is the
moment at which a timeout fires.
-/

namespace MagiskNative.Daemon

/-- What a worker does between two stretches under the lock. -/
inductive WorkerState where
  /-- it is on its way to the lock, with nothing to do -/
  | looking
  /-- it waits on `task_is_some` -/
  | waiting
  /-- it has been woken and is on its way back to the lock -/
  | notified
  /-- its timeout has fired and it is on its way back to the lock -/
  | timedOut
  | running
  | ended
  deriving DecidableEq, Repr

structure Worker (τ : Type) where
  isCorePool : Bool
  state : WorkerState
  task : Option τ := none
  deriving DecidableEq, Repr

inductive CallerState where
  /-- on its way to the lock -/
  | trying
  /-- it waits on `task_is_none` -/
  | blocked
  | done
  deriving DecidableEq, Repr

/-- A thread in `exec_task`. -/
structure Caller (τ : Type) where
  task : τ
  state : CallerState
  deriving DecidableEq, Repr

structure ThreadPool (τ : Type) where
  idleThreads : Int := 0
  totalThreads : Int := 0
  task : Option τ := none
  workers : List (Worker τ) := []
  callers : List (Caller τ) := []
  deriving DecidableEq, Repr

def corePoolSize : Int := 3

/-- `notify_one`: if there are threads that wait, `choice` is the one that is woken. -/
def notifyOne {α : Type} (waits : α → Bool) (wake : α → α) (threads : List α) :
    Option Nat → Option (List α)
  | some i =>
      match threads[i]? with
      | some x => if waits x then some (threads.set i (wake x)) else none
      | none => none
  | none => if threads.any waits then none else some threads

inductive Action (τ : Type) where
  | call (task : τ)
  /-- a caller finds the slot full and waits -/
  | block (c : Nat)
  /-- a caller fills the slot -/
  | submit (c : Nat) (woken : Option Nat)
  /-- a worker comes to the top of its loop -/
  | look (w : Nat) (woken : Option Nat)
  /-- a worker that has been woken goes on -/
  | resume (w : Nat) (woken : Option Nat)
  /-- the timeout of a worker fires -/
  | timeout (w : Nat)
  /-- a worker whose timeout has fired terminates -/
  | terminate (w : Nat)
  | finish (w : Nat)
  /-- wakeups that nothing has caused -/
  | spurious (w : Nat)
  | spuriousCaller (c : Nat)
  deriving DecidableEq, Repr

namespace ThreadPool

variable {τ : Type}

def notifyWorker (s : ThreadPool τ) (woken : Option Nat) : Option (List (Worker τ)) :=
  notifyOne (fun x => x.state = .waiting) (fun x => { x with state := .notified }) s.workers woken

def notifyCaller (s : ThreadPool τ) (woken : Option Nat) : Option (List (Caller τ)) :=
  notifyOne (fun x => x.state = .blocked) (fun x => { x with state := .trying }) s.callers woken

def moveWorker (s : ThreadPool τ) (w : Nat) (old new : WorkerState) (task : Option τ := none) :
    Option (List (Worker τ)) :=
  match s.workers[w]? with
  | some x => if x.state = old then some (s.workers.set w { x with state := new, task }) else none
  | none => none

def moveCaller (s : ThreadPool τ) (c : Nat) (old new : CallerState) : Option (τ × List (Caller τ)) :=
  match s.callers[c]? with
  | some x =>
      if x.state = old then some (x.task, s.callers.set c { x with state := new }) else none
  | none => none

def fill (s : ThreadPool τ) (task : τ) (woken : Option Nat) : Option (ThreadPool τ) :=
  if s.idleThreads = 0 then
    let totalThreads := s.totalThreads + 1
    some
      { s with
        task := some task
        totalThreads
        workers := s.workers ++ [{ isCorePool := totalThreads ≤ corePoolSize, state := .looking }] }
  else do
    let workers ← s.notifyWorker woken
    return { s with task := some task, workers }

def step (s : ThreadPool τ) : Action τ → Option (ThreadPool τ)
  | .call task => some { s with callers := s.callers ++ [⟨task, .trying⟩] }
  | .block c =>
      if s.task.isSome then do
        let (_, callers) ← s.moveCaller c .trying .blocked
        return { s with callers }
      else none
  | .submit c woken =>
      if s.task.isNone then do
        let (task, callers) ← s.moveCaller c .trying .done
        fill { s with callers } task woken
      else none
  | .look w woken =>
      match s.task with
      | none => do
          let workers ← s.moveWorker w .looking .waiting
          return { s with idleThreads := s.idleThreads + 1, workers }
      | some task => do
          -- The worker counts itself idle and back in one stretch.
          let workers ← s.moveWorker w .looking .running (some task)
          let callers ← s.notifyCaller woken
          return { s with task := none, workers, callers }
  | .resume w woken => do
      -- Somebody else may have taken the task.
      let next := if s.task.isSome then .running else .looking
      let workers ← s.moveWorker w .notified next s.task
      let callers ← s.notifyCaller woken
      return { s with idleThreads := s.idleThreads - 1, task := none, workers, callers }
  | .timeout w => do
      let x ← s.workers[w]?
      -- It may also fire between the notification and the lock.
      if !x.isCorePool && (x.state = .waiting || x.state = .notified) then
        return { s with workers := s.workers.set w { x with state := .timedOut } }
      else none
  | .terminate w => do
      let workers ← s.moveWorker w .timedOut .ended
      return { s with
        idleThreads := s.idleThreads - 1, totalThreads := s.totalThreads - 1, workers }
  | .finish w => do
      let workers ← s.moveWorker w .running .looking
      return { s with workers }
  | .spurious w => do
      let workers ← s.moveWorker w .waiting .notified
      return { s with workers }
  | .spuriousCaller c => do
      let (_, callers) ← s.moveCaller c .blocked .trying
      return { s with callers }

variable {s s' : ThreadPool τ}

theorem moveWorker_eq_some {w : Nat} {old new : WorkerState} {task : Option τ}
    {workers : List (Worker τ)} (hmove : s.moveWorker w old new task = some workers) :
    ∃ x, s.workers[w]? = some x ∧ x.state = old ∧
      workers = s.workers.set w { x with state := new, task } := by
  rw [moveWorker] at hmove
  split at hmove
  · rename_i x hx
    split at hmove
    · rename_i hold
      exact ⟨x, hx, hold, (Option.some.inj hmove).symm⟩
    · cases hmove
  · cases hmove

theorem notifyOne_eq_some {α : Type} {waits : α → Bool} {wake : α → α} {threads threads' : List α}
    {choice : Option Nat} (hnotify : notifyOne waits wake threads choice = some threads') :
    (∃ (i : Nat) (x : α), threads[i]? = some x ∧ waits x = true ∧ threads' = threads.set i (wake x)) ∨
      (∀ x ∈ threads, waits x = false) ∧ threads' = threads := by
  cases choice with
  | none =>
      rw [notifyOne] at hnotify
      split at hnotify
      · cases hnotify
      · rename_i hnone
        rw [Bool.not_eq_true, List.any_eq_false] at hnone
        exact .inr ⟨fun x hx => by simpa using hnone x hx, (Option.some.inj hnotify).symm⟩
  | some i =>
      rw [notifyOne] at hnotify
      split at hnotify
      · rename_i x hx
        split at hnotify
        · rename_i hwaits
          exact .inl ⟨i, x, hx, hwaits, (Option.some.inj hnotify).symm⟩
        · cases hnotify
      · cases hnotify

theorem countP_set_add {α : Type} (q : α → Bool) {l : List α} {i : Nat} {x : α} (y : α) (hx : l[i]? = some x) :
    (l.set i y).countP q + (q x).toNat = l.countP q + (q y).toNat := by
  induction l generalizing i with
  | nil => cases hx
  | cons z l ih =>
      cases i with
      | zero =>
          cases hx
          cases hqx : q x <;> cases hqy : q y <;> simp [hqx, hqy]
      | succ i =>
          have hrest := ih hx
          rw [List.set_cons_succ, List.countP_cons, List.countP_cons]
          omega

end ThreadPool

def WorkerState.counted : WorkerState → Bool
  | waiting | notified | timedOut => true
  | _ => false

def Worker.runs {τ : Type} (p : τ → Bool) (x : Worker τ) : Bool := x.state = .running && x.task.any p

def Caller.handed {τ : Type} (p : τ → Bool) (x : Caller τ) : Bool := x.state = .done && p x.task

/-- The next step of a worker in this state takes the slot. -/
def WorkerState.takes : WorkerState → Bool
  | looking | notified => true
  | _ => false

/-- An action that neither fills the slot nor ends a wait before its task. -/
def Action.isQuiet {τ : Type} : Action τ → Bool
  | submit .. | timeout _ => false
  | _ => true

namespace ThreadPool

variable {τ : Type} {s s' : ThreadPool τ} {a : Action τ}

/-- What a step does to slot, workers and idle count. -/
inductive Effect (s : ThreadPool τ) (a : Action τ) (s' : ThreadPool τ) : Prop
  | callers (ha : a.isQuiet = true) (hworkers : s'.workers = s.workers) (htask : s'.task = s.task)
      (hidle : s'.idleThreads = s.idleThreads)
  | worker (ha : a.isQuiet = true) {w : Nat} {x : Worker τ} {new : WorkerState} {task : Option τ}
      (hx : s.workers[w]? = some x) (hworkers : s'.workers = s.workers.set w { x with state := new, task })
      (htask : s'.task = none ∨ s'.task = s.task ∧ x.state.takes = false)
      (hidle : s'.idleThreads = s.idleThreads - x.state.counted.toNat + new.counted.toNat)
  | timeout {w : Nat} (ha : a = .timeout w) {x : Worker τ} (hx : s.workers[w]? = some x)
      (hcounted : x.state.counted = true)
      (hworkers : s'.workers = s.workers.set w { x with state := .timedOut })
      (htask : s'.task = s.task) (hidle : s'.idleThreads = s.idleThreads)
  | spawn {c : Nat} {woken : Option Nat} (ha : a = .submit c woken)
      (hempty : s.idleThreads = 0) {x : Worker τ} (hx : x.state = .looking)
      (hworkers : s'.workers = s.workers ++ [x])
      (hidle : s'.idleThreads = s.idleThreads)
  | notify {c : Nat} {woken : Option Nat} (ha : a = .submit c woken) {w : Nat} {x : Worker τ}
      (hx : s.workers[w]? = some x) (hwaiting : x.state = .waiting)
      (hworkers : s'.workers = s.workers.set w { x with state := .notified })
      (hidle : s'.idleThreads = s.idleThreads)
  | lost {c : Nat} {woken : Option Nat} (ha : a = .submit c woken) (hsome : s.idleThreads ≠ 0)
      (hnone : ∀ x ∈ s.workers, x.state ≠ .waiting) (htask : s'.task.isSome)
      (hworkers : s'.workers = s.workers) (hidle : s'.idleThreads = s.idleThreads)

theorem effect_of_fill {c : Nat} {woken : Option Nat} {task : τ} {callers : List (Caller τ)}
    (hfill : fill { s with callers } task woken = some s') : Effect s (.submit c woken) s' := by
  rw [fill] at hfill
  split at hfill
  · rename_i hempty
    cases hfill
    exact .spawn rfl hempty rfl rfl rfl
  · rename_i hsome
    simp only [Option.bind_eq_bind, Option.bind_eq_some_iff] at hfill
    obtain ⟨workers, hnotify, hs'⟩ := hfill
    cases hs'
    rcases notifyOne_eq_some hnotify with ⟨w, x, hx, hwaits, rfl⟩ | ⟨hnone, rfl⟩
    · exact .notify rfl hx (by simpa using hwaits) rfl rfl
    · exact .lost rfl hsome (fun x hx => by simpa using hnone x hx) rfl rfl rfl

theorem effect_of_move (ha : a.isQuiet = true) {w : Nat} {old new : WorkerState} {task : Option τ}
    (hmove : s.moveWorker w old new task = some s'.workers)
    (htask : s'.task = none ∨ s'.task = s.task ∧ old.takes = false)
    (hidle : s'.idleThreads = s.idleThreads - old.counted.toNat + new.counted.toNat) :
    Effect s a s' := by
  obtain ⟨x, hx, rfl, hworkers⟩ := moveWorker_eq_some hmove
  exact .worker ha hx hworkers htask hidle

theorem effect_of_step (hstep : s.step a = some s') : Effect s a s' := by
  cases a with
  | call task =>
      cases hstep
      exact .callers rfl rfl rfl rfl
  | block c =>
      simp only [step] at hstep
      split at hstep
      · simp only [Option.bind_eq_bind, Option.bind_eq_some_iff] at hstep
        obtain ⟨x, -, hs'⟩ := hstep
        cases hs'
        exact .callers rfl rfl rfl rfl
      · cases hstep
  | submit c woken =>
      simp only [step] at hstep
      split at hstep
      · simp only [Option.bind_eq_bind, Option.bind_eq_some_iff] at hstep
        obtain ⟨x, -, hfill⟩ := hstep
        exact effect_of_fill hfill
      · cases hstep
  | look w woken =>
      simp only [step] at hstep
      split at hstep
      · rename_i hnone
        simp only [Option.bind_eq_bind, Option.bind_eq_some_iff] at hstep
        obtain ⟨workers, hmove, hs'⟩ := hstep
        cases hs'
        exact effect_of_move rfl hmove (.inl hnone) (by simp [WorkerState.counted])
      · simp only [Option.bind_eq_bind, Option.bind_eq_some_iff] at hstep
        obtain ⟨workers, hmove, callers, -, hs'⟩ := hstep
        cases hs'
        exact effect_of_move rfl hmove (.inl rfl) (by simp [WorkerState.counted])
  | resume w woken =>
      simp only [step, Option.bind_eq_bind, Option.bind_eq_some_iff] at hstep
      obtain ⟨workers, hmove, callers, -, hs'⟩ := hstep
      cases hs'
      refine effect_of_move rfl hmove (.inl rfl) ?_
      split <;> simp [WorkerState.counted]
  | timeout w =>
      simp only [step, Option.bind_eq_bind, Option.bind_eq_some_iff] at hstep
      obtain ⟨x, hx, hs'⟩ := hstep
      split at hs'
      · rename_i hwaits
        cases hs'
        refine .timeout rfl hx ?_ rfl rfl rfl
        simp only [Bool.and_eq_true, Bool.or_eq_true, decide_eq_true_eq] at hwaits
        rcases hwaits.2 with hstate | hstate <;> rw [hstate] <;> rfl
      · cases hs'
  | terminate w | finish w | spurious w =>
      simp only [step, Option.bind_eq_bind, Option.bind_eq_some_iff] at hstep
      obtain ⟨workers, hmove, hs'⟩ := hstep
      cases hs'
      exact effect_of_move rfl hmove (.inr ⟨rfl, rfl⟩) (by simp [WorkerState.counted])
  | spuriousCaller c =>
      simp only [step, Option.bind_eq_bind, Option.bind_eq_some_iff] at hstep
      obtain ⟨x, -, hs'⟩ := hstep
      cases hs'
      exact .callers rfl rfl rfl rfl

/-- The count is that of the workers that wait or have been woken. -/
def Counted (s : ThreadPool τ) : Prop := s.idleThreads = s.workers.countP fun x => x.state.counted

theorem counted_step (hstep : s.step a = some s') (hcounted : Counted s) : Counted s' := by
  have hset : ∀ {w : Nat} {x y : Worker τ}, s.workers[w]? = some x →
      (((s.workers.set w y).countP fun x => x.state.counted : Nat) : Int)
        = s.idleThreads - x.state.counted.toNat + y.state.counted.toNat := by
    intro w x y hx
    have hset := countP_set_add (fun x => x.state.counted) y hx
    rw [Counted] at hcounted
    omega
  rw [Counted]
  cases effect_of_step hstep with
  | callers ha hworkers htask hidle => rw [hworkers, hidle, hcounted]
  | worker ha hx hworkers htask hidle => rw [hworkers, hidle, hset hx]
  | timeout ha hx hcount hworkers htask hidle =>
      rw [hworkers, hidle, hset hx, hcount]
      simp [WorkerState.counted]
  | spawn ha hempty hx hworkers hidle =>
      rw [hworkers, hidle, hcounted, List.countP_append, List.countP_singleton, hx]
      rfl
  | notify ha hx hwaiting hworkers hidle =>
      rw [hworkers, hidle, hset hx, hwaiting]
      simp [WorkerState.counted]
  | lost ha hsome hnone htask hworkers hidle => rw [hworkers, hidle, hcounted]

/-- **The idle count** is right in every state of every run. -/
theorem counted_of_visited (acts : List (Action τ)) : ∀ s ∈ Machine.visited step {} acts, Counted s := by
  have hcounted : Counted ({} : ThreadPool τ) := rfl
  exact (Machine.forall_visited_iff (fun _ _ _ => counted_step)
    (fun s a s' h hs _ => iff_of_true (counted_step h hs) trivial) hcounted hcounted acts).2
    fun _ _ => trivial

/-- If the slot is full, the next step of some worker takes the task. -/
def NotStranded (s : ThreadPool τ) : Prop := s.task.isSome → ∃ x ∈ s.workers, x.state.takes

instance (s : ThreadPool τ) : Decidable (NotStranded s) :=
  inferInstanceAs (Decidable (s.task.isSome → ∃ x ∈ s.workers, x.state.takes))

/-- A task is submitted only if every worker that has timed out leaves another one that waits or is on its
way to the slot, and a timeout does not fire for the only worker that takes the task in the slot. -/
def Attended (s : ThreadPool τ) : Action τ → Prop
  | .submit .. =>
      ∀ x ∈ s.workers, x.state = .timedOut → ∃ y ∈ s.workers, y.state.takes ∨ y.state = .waiting
  | .timeout w => s.task.isSome → ∃ v x, v ≠ w ∧ s.workers[v]? = some x ∧ x.state.takes
  | _ => True

theorem attended_of_quiet (ha : a.isQuiet = true) : Attended s a := by
  cases a with
  | submit c woken | timeout w => cases ha
  | _ => trivial

theorem notStranded_step (hstep : s.step a = some s') (hcounted : Counted s) (hs : NotStranded s) :
    NotStranded s' ↔ Attended s a := by
  have hother : ∀ {w : Nat} {x y z : Worker τ}, s.workers[w]? = some x → x.state.takes = false →
      z ∈ s.workers → z.state.takes = true → z ∈ s.workers.set w y := by
    intro w x y z hx hno hz htakes
    obtain ⟨i, hi⟩ := List.mem_iff_getElem?.1 hz
    refine List.mem_iff_getElem?.2 ⟨i, ?_⟩
    rw [List.getElem?_set_ne, hi]
    rintro rfl
    rw [hi, Option.some.injEq] at hx
    rw [hx, hno] at htakes
    cases htakes
  cases effect_of_step hstep with
  | callers ha hworkers htask hidle =>
      refine iff_of_true ?_ (attended_of_quiet ha)
      rw [NotStranded, hworkers, htask]
      exact hs
  | worker ha hx hworkers htask hidle =>
      refine iff_of_true ?_ (attended_of_quiet ha)
      intro hfull
      rcases htask with hnone | ⟨hsame, hno⟩
      · rw [hnone] at hfull
        cases hfull
      · obtain ⟨z, hz, htakes⟩ := hs (hsame ▸ hfull)
        rw [hworkers]
        exact ⟨z, hother hx hno hz htakes, htakes⟩
  | @timeout w ha x hx hcount hworkers htask hidle =>
      subst ha
      rw [NotStranded, htask, Attended, hworkers]
      refine imp_congr_right fun _ => ?_
      constructor
      · rintro ⟨z, hz, htakes⟩
        obtain ⟨v, hv⟩ := List.mem_iff_getElem?.1 hz
        have hne : v ≠ w := by
          rintro rfl
          rw [List.getElem?_set_self (List.getElem?_eq_some_iff.1 hx).1, Option.some.injEq] at hv
          rw [← hv] at htakes
          cases htakes
        rw [List.getElem?_set_ne hne.symm] at hv
        exact ⟨v, z, hne, hv, htakes⟩
      · rintro ⟨v, z, hne, hv, htakes⟩
        refine ⟨z, List.mem_iff_getElem?.2 ⟨v, ?_⟩, htakes⟩
        rw [List.getElem?_set_ne hne.symm, hv]
  | @spawn c woken ha hempty x hx hworkers hidle =>
      -- With an idle count of zero no worker waits, so none has timed out.
      have hidleless : ∀ x ∈ s.workers, x.state.counted = false := by
        have hzero : (s.workers.countP fun x => x.state.counted) = 0 := by
          rw [Counted, hempty] at hcounted
          omega
        intro y hy
        simpa using List.countP_eq_zero.1 hzero y hy
      have hattended : Attended s a := by
        subst ha
        intro y hy hout
        have := hidleless y hy
        rw [hout] at this
        cases this
      refine iff_of_true (fun _ => ⟨x, ?_, by rw [hx]; rfl⟩) hattended
      rw [hworkers]
      exact List.mem_append_right _ List.mem_cons_self
  | @notify c woken ha w x hx hwaiting hworkers hidle =>
      subst ha
      have hw := (List.getElem?_eq_some_iff.1 hx).1
      refine iff_of_true (fun _ => ⟨{ x with state := .notified }, ?_, rfl⟩) fun _ _ _ => ?_
      · rw [hworkers]
        exact List.mem_set hw _
      · exact ⟨x, List.mem_of_getElem? hx, .inr hwaiting⟩
  | lost ha hsome hnone htask hworkers hidle =>
      subst ha
      rw [NotStranded, hworkers, Attended]
      simp only [htask, true_implies]
      constructor
      · rintro ⟨y, hy, htakes⟩ _ _ _
        exact ⟨y, hy, .inl htakes⟩
      · intro hattended
        -- The worker that keeps the count from being zero has been woken or has timed out.
        obtain ⟨y, hy, hcount⟩ : ∃ y ∈ s.workers, y.state.counted = true := by
          have hpos : 0 < s.workers.countP fun x => x.state.counted := by
            rw [Counted] at hcounted
            omega
          exact List.countP_pos_iff.1 hpos
        cases hstate : y.state with
        | waiting => exact absurd hstate (hnone y hy)
        | notified => exact ⟨y, hy, by rw [hstate]; rfl⟩
        | timedOut =>
            obtain ⟨z, hz, htakes | hwaiting⟩ := hattended y hy hstate
            · exact ⟨z, hz, htakes⟩
            · exact absurd hwaiting (hnone z hz)
        | looking | running | ended =>
            rw [hstate] at hcount
            cases hcount

/-- **Stranded tasks.** A run strands no task exactly if nothing is submitted while a worker has timed out
and no other worker waits or is about to look into the slot, and no timeout fires for the only worker
that is about to take a task. -/
theorem notStranded_iff (acts : List (Action τ)) :
    (∀ s ∈ Machine.visited step {} acts, NotStranded s) ↔
      ∀ x ∈ Machine.taken step ({} : ThreadPool τ) acts, Attended x.1 x.2 := by
  have hcounted : Counted ({} : ThreadPool τ) := rfl
  have hempty : NotStranded ({} : ThreadPool τ) := fun hfull => by cases hfull
  exact Machine.forall_visited_iff (fun _ _ _ => counted_step) (fun _ _ _ => notStranded_step)
    hcounted hempty acts

/-- Three tasks occupy the core workers, the fourth worker is done with its own task and waits. Its timeout
fires; before it has the lock again, a fifth task comes. -/
def lateRun : List (Action Nat) :=
  [.call 0, .submit 0 none, .look 0 none, .call 1, .submit 1 none, .look 1 none,
    .call 2, .submit 2 none, .look 2 none, .call 3, .submit 3 none, .look 3 none,
    .finish 3, .look 3 none, .timeout 3, .call 4, .submit 4 none, .terminate 3]

theorem counted_of_visited_lateRun :
    ∃ s ∈ Machine.visited step {} lateRun, s.workers.length = 4 ∧ s.idleThreads = 1 ∧ Counted s := by
  have hidle : ∃ s ∈ Machine.visited step {} lateRun, s.workers.length = 4 ∧ s.idleThreads = 1 := by decide
  obtain ⟨s, hs, hworkers, hone⟩ := hidle
  exact ⟨s, hs, hworkers, hone, counted_of_visited lateRun s hs⟩

theorem not_notStranded_lateRun : ¬ ∀ s ∈ Machine.visited step {} lateRun, NotStranded s := by
  decide

section Conservation

variable {s s' : ThreadPool τ} {woken : Option Nat} (p : τ → Bool)

/-- How many tasks of a kind have been handed over. -/
def handed (s : ThreadPool τ) : Nat := s.callers.countP (Caller.handed p)

/-- How many of them are in the slot or run. -/
def held (s : ThreadPool τ) : Nat := (s.task.any p).toNat + s.workers.countP (Worker.runs p)

/-- How many of them an action ends. -/
def finished (s : ThreadPool τ) : Action τ → Nat
  | .finish w => (s.workers[w]?.any fun x => x.task.any p).toNat
  | _ => 0

theorem countP_moveWorker {w : Nat} {old new : WorkerState} {task : Option τ} {workers : List (Worker τ)}
    (hmove : s.moveWorker w old new task = some workers) :
    ∃ x, s.workers[w]? = some x ∧
      workers.countP (Worker.runs p) + (old = .running && x.task.any p).toNat
        = s.workers.countP (Worker.runs p) + (new = .running && task.any p).toNat := by
  obtain ⟨x, hx, rfl, rfl⟩ := moveWorker_eq_some hmove
  exact ⟨x, hx, countP_set_add (Worker.runs p) _ hx⟩

theorem countP_moveCaller {c : Nat} {old new : CallerState} {task : τ} {callers : List (Caller τ)}
    (hmove : s.moveCaller c old new = some (task, callers)) :
    callers.countP (Caller.handed p) + (old = .done && p task).toNat
      = s.callers.countP (Caller.handed p) + (new = .done && p task).toNat := by
  rw [moveCaller] at hmove
  split at hmove
  · rename_i x hx
    split_ifs at hmove with hold
    cases hmove
    subst hold
    exact countP_set_add (Caller.handed p) _ hx
  · cases hmove

theorem countP_notifyOne {α : Type} {waits : α → Bool} {wake : α → α} {threads threads' : List α}
    (q : α → Bool) (hwake : ∀ x, waits x = true → q (wake x) = q x)
    (hnotify : notifyOne waits wake threads woken = some threads') : threads'.countP q = threads.countP q := by
  rcases notifyOne_eq_some hnotify with ⟨i, x, hx, hwaits, rfl⟩ | ⟨-, rfl⟩
  · have hset := countP_set_add q (wake x) hx
    rw [hwake x hwaits] at hset
    omega
  · rfl

theorem countP_notifyCaller {callers : List (Caller τ)}
    (hnotify : s.notifyCaller woken = some callers) :
    callers.countP (Caller.handed p) = s.callers.countP (Caller.handed p) :=
  countP_notifyOne _ (fun x hx => by simp_all [Caller.handed]) hnotify

theorem held_fill {task : τ} (hfill : s.fill task woken = some s') (hnone : s.task = none) :
    s'.callers = s.callers ∧ s'.held p = s.held p + (p task).toNat := by
  rw [fill] at hfill
  split_ifs at hfill
  · cases hfill
    simp [held, hnone, Nat.add_comm, Worker.runs]
  · obtain ⟨workers, hnotify, hs'⟩ := Option.bind_eq_some_iff.1 hfill
    cases hs'
    have hcount := countP_notifyOne (Worker.runs p) (fun x hx => by simp_all [Worker.runs]) hnotify
    simp [held, hnone, hcount, Nat.add_comm]

theorem balance_step (s : ThreadPool τ) (a : Action τ) (s' : ThreadPool τ) (hstep : s.step a = some s') :
    (s'.handed p - s'.held p : Int) = s.handed p - s.held p + s.finished p a := by
  cases a with
  | call task =>
      cases hstep
      simp [handed, held, finished, Caller.handed]
  | block c =>
      simp only [step, Option.bind_eq_bind] at hstep
      split_ifs at hstep
      obtain ⟨⟨task, callers⟩, hmove, hs'⟩ := Option.bind_eq_some_iff.1 hstep
      cases hs'
      have hcount := countP_moveCaller p hmove
      simp_all [handed, held, finished]
  | submit c woken =>
      simp only [step, Option.bind_eq_bind] at hstep
      split_ifs at hstep with hnone
      obtain ⟨⟨task, callers⟩, hmove, hfill⟩ := Option.bind_eq_some_iff.1 hstep
      have hcount := countP_moveCaller p hmove
      obtain ⟨hcallers, hheld⟩ := held_fill p hfill (by simpa using hnone)
      simp_all [handed, held, finished]
  | look w woken =>
      simp only [step, Option.bind_eq_bind] at hstep
      split at hstep
      · obtain ⟨workers, hmove, hs'⟩ := Option.bind_eq_some_iff.1 hstep
        cases hs'
        obtain ⟨x, hx, hcount⟩ := countP_moveWorker p hmove
        simp_all [handed, held, finished]
      · simp only [Option.bind_eq_some_iff] at hstep
        obtain ⟨workers, hmove, callers, hnotify, hs'⟩ := hstep
        cases hs'
        obtain ⟨x, hx, hcount⟩ := countP_moveWorker p hmove
        have hcallers := countP_notifyCaller p hnotify
        simp_all [handed, held, finished]
        omega
  | resume w woken =>
      simp only [step, Option.bind_eq_bind, Option.bind_eq_some_iff] at hstep
      obtain ⟨workers, hmove, callers, hnotify, hs'⟩ := hstep
      cases hs'
      obtain ⟨x, hx, hcount⟩ := countP_moveWorker p hmove
      have hcallers := countP_notifyCaller p hnotify
      cases htask : s.task <;> simp_all [handed, held, finished]
      omega
  | timeout w =>
      simp only [step, Option.bind_eq_bind, Option.bind_eq_some_iff] at hstep
      obtain ⟨x, hx, hs'⟩ := hstep
      split_ifs at hs' with hwaits
      cases hs'
      have hcount := countP_set_add (Worker.runs p) { x with state := .timedOut } hx
      have hstate : x.state ≠ .running := by
        intro hrunning
        simp [hrunning] at hwaits
      simp_all [handed, held, finished, Worker.runs]
  | terminate w | spurious w | finish w =>
      simp only [step, Option.bind_eq_bind, Option.bind_eq_some_iff] at hstep
      obtain ⟨workers, hmove, hs'⟩ := hstep
      cases hs'
      obtain ⟨x, hx, hcount⟩ := countP_moveWorker p hmove
      simp_all [handed, held, finished] <;> omega
  | spuriousCaller c =>
      simp only [step, Option.bind_eq_bind, Option.bind_eq_some_iff] at hstep
      obtain ⟨⟨task, callers⟩, hmove, hs'⟩ := hstep
      cases hs'
      have hcount := countP_moveCaller p hmove
      simp_all [handed, held, finished]

/-- **No task is lost or run twice.** Whatever the interleaving, of every kind as many tasks have been handed
over as are in the slot, run or have been finished. -/
theorem handed_eq_held_add_finished (acts : List (Action τ)) :
    let s := (Machine.visited step {} acts).getLastD {}
    s.handed p = s.held p + ((Machine.taken step {} acts).map fun x => x.1.finished p x.2).sum := by
  have hlast := Machine.balance_last (balance_step p) {} acts
  have hstart : (({} : ThreadPool τ).handed p : Int) - ({} : ThreadPool τ).held p = 0 := rfl
  dsimp only at hlast ⊢
  omega

end Conservation

end ThreadPool

end MagiskNative.Daemon
