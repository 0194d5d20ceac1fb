import CodeTrail.Code.Pool
import Mathlib.Data.List.Basic
import Mathlib.Logic.Relation

/-!
# Pools keep the order of their jobs

`Pool.Step` is one thing that can happen to a pool: a waiting job is started where there is room, a
running job is done, whichever, or the result at the front is handed on. No step changes what the pool
amounts to in the end (`results_step`), so every run that finishes hands on the results in the order
of the jobs, whatever the limit and whatever the order in which jobs are done
(`handedOn_of_finished`). No run has more jobs in flight than the limit allows
(`length_flight_le_of_run`), none gets stuck before it is finished (`finished_or_exists_step`) and
none goes on forever (`toDo_of_step`).

A round of `Pool.round` is such a run (`run_round`). It finishes one job as long as there is one
(`unfinished_round`), so as many rounds as jobs finish a pool, and `map_eq_map` says what
`Pool.map` is.
-/

set_option autoImplicit false
set_option relaxedAutoImplicit false

namespace CodeTrail.Code.Pool

variable {α β : Type} {limit : Nat} {work : α → β}

@[simp] theorem countP_isLeft_inl (job : α) (rest : List (α ⊕ β)) :
    (Sum.inl job :: rest).countP Sum.isLeft = rest.countP Sum.isLeft + 1 :=
  List.countP_cons_of_pos rfl

@[simp] theorem countP_isLeft_inr (result : β) (rest : List (α ⊕ β)) :
    (Sum.inr result :: rest).countP Sum.isLeft = rest.countP Sum.isLeft :=
  List.countP_cons_of_neg (by simp)

/-! ### Steps -/

/-- One thing that happens to a pool. -/
inductive Step (limit : Nat) (work : α → β) : Pool α β → Pool α β → Prop
  | start (handedOn : List β) {flight : List (α ⊕ β)} (hroom : flight.length < limit) (job : α)
    (waiting : List α) :
    Step limit work ⟨handedOn, flight, job :: waiting⟩ ⟨handedOn, flight ++ [.inl job], waiting⟩
  | finish (handedOn : List β) (front : List (α ⊕ β)) (job : α) (back : List (α ⊕ β))
    (waiting : List α) :
    Step limit work ⟨handedOn, front ++ .inl job :: back, waiting⟩
      ⟨handedOn, front ++ .inr (work job) :: back, waiting⟩
  | handOn (handedOn : List β) (result : β) (flight : List (α ⊕ β)) (waiting : List α) :
    Step limit work ⟨handedOn, .inr result :: flight, waiting⟩
      ⟨handedOn ++ [result], flight, waiting⟩

/-- A run of a pool: any steps, one after the other. -/
def Run (limit : Nat) (work : α → β) : Pool α β → Pool α β → Prop :=
  Relation.ReflTransGen (Step limit work)

/-- Nothing is left to do. -/
structure Finished (pool : Pool α β) : Prop where
  flight : pool.flight = []
  waiting : pool.waiting = []

/-- The results of a pool in the end, in order. -/
def results (work : α → β) (pool : Pool α β) : List β :=
  pool.handedOn ++ pool.flight.map (Sum.elim work id) ++ pool.waiting.map work

/-- No step changes the results. -/
theorem results_step {pool next : Pool α β} (hstep : Step limit work pool next) :
    results work next = results work pool := by
  cases hstep with
  | start handedOn hroom job waiting => simp [results]
  | finish handedOn front job back waiting => simp [results]
  | handOn handedOn result flight waiting => simp [results]

theorem results_run {pool next : Pool α β} (hrun : Run limit work pool next) :
    results work next = results work pool := by
  induction hrun with
  | refl => rfl
  | tail hrun hstep ih => rw [results_step hstep, ih]

/-- A run that is finished has handed on the results in the order of the jobs. -/
theorem handedOn_of_finished {jobs : List α} {pool : Pool α β}
    (hrun : Run limit work ⟨[], [], jobs⟩ pool) (hfinished : pool.Finished) :
    pool.handedOn = jobs.map work := by
  have hresults := results_run hrun
  simpa [results, hfinished.flight, hfinished.waiting] using hresults

theorem length_flight_le_of_step {pool next : Pool α β} (hstep : Step limit work pool next)
    (hflight : pool.flight.length ≤ limit) : next.flight.length ≤ limit := by
  cases hstep with
  | start handedOn hroom job waiting => simpa [Nat.succ_le_iff] using hroom
  | finish handedOn front job back waiting => simpa using hflight
  | handOn handedOn result flight waiting => exact Nat.le_of_succ_le hflight

/-- No run has more jobs in flight than the limit allows. -/
theorem length_flight_le_of_run {jobs : List α} {pool : Pool α β}
    (hrun : Run limit work ⟨[], [], jobs⟩ pool) : pool.flight.length ≤ limit := by
  induction hrun with
  | refl => exact Nat.zero_le limit
  | tail hrun hstep ih => exact length_flight_le_of_step hstep ih

/-- A pool with room for a job is finished or goes on. -/
theorem finished_or_exists_step (hlimit : 0 < limit) (work : α → β) (pool : Pool α β) :
    pool.Finished ∨ ∃ next, Step limit work pool next := by
  obtain ⟨handedOn, flight, waiting⟩ := pool
  cases flight with
  | nil =>
    cases waiting with
    | nil => exact Or.inl ⟨rfl, rfl⟩
    | cons job waiting => exact Or.inr ⟨_, .start handedOn hlimit job waiting⟩
  | cons first flight =>
    cases first with
    | inl job => exact Or.inr ⟨_, .finish handedOn [] job flight waiting⟩
    | inr result => exact Or.inr ⟨_, .handOn handedOn result flight waiting⟩

/-- The number of steps left: a job that waits is started, finished and handed on, a running job is
finished and handed on, and a result is handed on. -/
def toDo (pool : Pool α β) : Nat :=
  pool.flight.countP Sum.isLeft + pool.flight.length + 3 * pool.waiting.length

/-- Every step does something that is left to do, so no run goes on forever. -/
theorem toDo_of_step {pool next : Pool α β} (hstep : Step limit work pool next) :
    next.toDo + 1 = pool.toDo := by
  cases hstep with
  | start handedOn hroom job waiting => simp [toDo]; omega
  | finish handedOn front job back waiting => simp [toDo]; omega
  | handOn handedOn result flight waiting => simp [toDo]; omega

/-! ### Rounds are runs -/

/-- Room is used up one waiting job at a time. -/
theorem run_start_of_le (work : α → β) (handedOn : List β) {room : Nat} {flight : List (α ⊕ β)}
    (waiting : List α) (hroom : room ≤ limit - flight.length) :
    Run limit work ⟨handedOn, flight, waiting⟩
      ⟨handedOn, flight ++ (waiting.take room).map .inl, waiting.drop room⟩ := by
  induction room generalizing flight waiting with
  | zero =>
    rw [List.take_zero, List.map_nil, List.append_nil, List.drop_zero]
    exact .refl
  | succ room ih =>
    cases waiting with
    | nil =>
      rw [List.take_nil, List.map_nil, List.append_nil, List.drop_nil]
      exact .refl
    | cons job waiting =>
      have hroom' : room ≤ limit - (flight ++ [Sum.inl job]).length := by
        rw [List.length_append, List.length_singleton]
        omega
      have hrest := ih waiting hroom'
      rw [List.append_assoc] at hrest
      exact .head (.start handedOn (by omega) job waiting) hrest

theorem run_start (limit : Nat) (work : α → β) (pool : Pool α β) :
    Run limit work pool (pool.start limit) :=
  run_start_of_le work pool.handedOn pool.waiting (Nat.le_refl _)

/-- The chosen job is done, and no other. -/
theorem run_complete (limit : Nat) (work : α → β) (handedOn : List β) (waiting : List α)
    (place : Nat) (front flight : List (α ⊕ β)) :
    Run limit work ⟨handedOn, front ++ flight, waiting⟩
      ⟨handedOn, front ++ complete work place flight, waiting⟩ := by
  fun_induction complete work place flight generalizing front with
  | case1 => exact .refl
  | case2 place result rest ih =>
    have hrest := ih (front ++ [.inr result])
    rwa [List.append_assoc, List.append_assoc] at hrest
  | case3 job rest => exact .single (.finish handedOn front job rest waiting)
  | case4 place job rest ih =>
    have hrest := ih (front ++ [.inl job])
    rwa [List.append_assoc, List.append_assoc] at hrest

theorem handOn_of_ready_eq_nil {pool : Pool α β} (hready : ready pool.flight = ([], pool.flight)) :
    pool.handOn = pool := by
  simp only [handOn, hready, List.append_nil]

theorem handOn_cons_inr (handedOn : List β) (result : β) (flight : List (α ⊕ β))
    (waiting : List α) :
    handOn ⟨handedOn, .inr result :: flight, waiting⟩ =
      handOn ⟨handedOn ++ [result], flight, waiting⟩ := by
  unfold handOn
  simp only [ready, List.append_assoc, List.singleton_append]

/-- Results at the front are handed on one after the other. -/
theorem run_handOn (limit : Nat) (work : α → β) (pool : Pool α β) :
    Run limit work pool pool.handOn := by
  obtain ⟨handedOn, flight, waiting⟩ := pool
  induction flight generalizing handedOn with
  | nil => rw [handOn_of_ready_eq_nil rfl]; exact .refl
  | cons first flight ih =>
    cases first with
    | inl job => rw [handOn_of_ready_eq_nil rfl]; exact .refl
    | inr result =>
      rw [handOn_cons_inr]
      exact .head (.handOn handedOn result flight waiting) (ih (handedOn ++ [result]))

/-- A round is a run. -/
theorem run_round (limit : Nat) (work : α → β) (choice : Nat) (pool : Pool α β) :
    Run limit work pool (round limit work choice pool) := by
  have hstart := run_start limit work pool
  have hcomplete := run_complete limit work (pool.start limit).handedOn (pool.start limit).waiting
    (choice % (pool.start limit).flight.countP Sum.isLeft) [] (pool.start limit).flight
  exact (hstart.trans hcomplete).trans (run_handOn limit work _)

theorem run_rounds (limit : Nat) (work : α → β) (count : Nat) (choices : List Nat)
    (pool : Pool α β) : Run limit work pool (rounds limit work count choices pool) := by
  induction count generalizing choices pool with
  | zero => exact .refl
  | succ count ih => exact (run_round limit work _ pool).trans (ih choices.tail _)

/-! ### Rounds come to an end -/

/-- The number of jobs that run or wait. -/
def unfinished (pool : Pool α β) : Nat :=
  pool.flight.countP Sum.isLeft + pool.waiting.length

/-- No result is held back at the front, where no running job holds it up. -/
def Settled (pool : Pool α β) : Prop :=
  (ready pool.flight).1 = []

/-- A settled pool has nothing in flight, or a running job in front. -/
theorem Settled.flight_eq_nil {pool : Pool α β} (hsettled : pool.Settled)
    (hrunning : pool.flight.countP Sum.isLeft = 0) : pool.flight = [] := by
  obtain ⟨handedOn, flight, waiting⟩ := pool
  cases flight with
  | nil => rfl
  | cons first flight =>
    cases first with
    | inl job => simp at hrunning
    | inr result => simp [Settled, ready] at hsettled

theorem Settled.finished {pool : Pool α β} (hsettled : pool.Settled)
    (hunfinished : pool.unfinished = 0) : pool.Finished := by
  obtain ⟨hrunning, hwaiting⟩ := Nat.add_eq_zero_iff.mp hunfinished
  exact ⟨hsettled.flight_eq_nil hrunning, List.eq_nil_of_length_eq_zero hwaiting⟩

theorem settled_handOn (pool : Pool α β) : pool.handOn.Settled := by
  obtain ⟨handedOn, flight, waiting⟩ := pool
  induction flight generalizing handedOn with
  | nil => rfl
  | cons first flight ih =>
    cases first with
    | inl job => rfl
    | inr result => rw [handOn_cons_inr]; exact ih (handedOn ++ [result])

theorem settled_round (limit : Nat) (work : α → β) (choice : Nat) (pool : Pool α β) :
    (round limit work choice pool).Settled :=
  settled_handOn _

theorem unfinished_start (limit : Nat) (pool : Pool α β) :
    (pool.start limit).unfinished = pool.unfinished := by
  have hstarted (jobs : List α) :
      (jobs.map (Sum.inl (β := β))).countP Sum.isLeft = jobs.length := by
    rw [List.countP_map]; simp
  simp only [unfinished, start, List.countP_append, hstarted, List.length_take, List.length_drop]
  omega

theorem unfinished_handOn (pool : Pool α β) : pool.handOn.unfinished = pool.unfinished := by
  obtain ⟨handedOn, flight, waiting⟩ := pool
  induction flight generalizing handedOn with
  | nil => rfl
  | cons first flight ih =>
    cases first with
    | inl job => rfl
    | inr result =>
      rw [handOn_cons_inr, ih]
      simp [unfinished]

/-- Completing leaves one job fewer running, and is idle past the last of them. -/
theorem countP_complete (work : α → β) (place : Nat) (flight : List (α ⊕ β)) :
    (complete work place flight).countP Sum.isLeft =
      if place < flight.countP Sum.isLeft then flight.countP Sum.isLeft - 1
      else flight.countP Sum.isLeft := by
  fun_induction complete work place flight with
  | case1 => simp
  | case2 place result rest ih => simpa using ih
  | case3 job rest => simp
  | case4 place job rest ih =>
    rw [countP_isLeft_inl, countP_isLeft_inl, ih]
    split_ifs <;> omega

/-- Where there is a job left, a round has one running. -/
theorem countP_start_pos {pool : Pool α β} (hlimit : 0 < limit) (hsettled : pool.Settled)
    (hunfinished : 0 < pool.unfinished) : 0 < (pool.start limit).flight.countP Sum.isLeft := by
  obtain ⟨handedOn, flight, waiting⟩ := pool
  by_cases hrunning : flight.countP Sum.isLeft = 0
  · obtain rfl : flight = [] := hsettled.flight_eq_nil hrunning
    cases waiting with
    | nil => simp [unfinished] at hunfinished
    | cons job waiting =>
      obtain ⟨room, rfl⟩ := Nat.exists_eq_succ_of_ne_zero (Nat.ne_of_gt hlimit)
      simp [start]
  · simp only [start, List.countP_append]
    omega

/-- A round finishes one job, as long as there is one. -/
theorem unfinished_round (hlimit : 0 < limit) (work : α → β) (choice : Nat) {pool : Pool α β}
    (hsettled : pool.Settled) :
    (round limit work choice pool).unfinished = pool.unfinished - 1 := by
  unfold round
  rw [unfinished_handOn, ← unfinished_start limit pool]
  by_cases hunfinished : 0 < pool.unfinished
  · have hrunning := countP_start_pos hlimit hsettled hunfinished
    have hplace := Nat.mod_lt choice hrunning
    simp only [unfinished, countP_complete, if_pos hplace]
    omega
  · rw [← unfinished_start limit pool] at hunfinished
    simp only [unfinished, countP_complete] at hunfinished ⊢
    split_ifs <;> omega

theorem unfinished_rounds (hlimit : 0 < limit) (work : α → β) (count : Nat) (choices : List Nat)
    {pool : Pool α β} (hsettled : pool.Settled) :
    (rounds limit work count choices pool).unfinished = pool.unfinished - count ∧
      (rounds limit work count choices pool).Settled := by
  induction count generalizing choices pool with
  | zero => exact ⟨rfl, hsettled⟩
  | succ count ih =>
    obtain ⟨hunfinished, hafter⟩ := ih choices.tail (settled_round limit work (choices.headD 0) pool)
    rw [unfinished_round hlimit work _ hsettled] at hunfinished
    exact ⟨by unfold rounds; omega, hafter⟩

/-- As many rounds as there are jobs finish a pool. -/
theorem finished_rounds (hlimit : 0 < limit) (choices : List Nat) (work : α → β) (jobs : List α) :
    (rounds limit work jobs.length choices ⟨[], [], jobs⟩).Finished := by
  obtain ⟨hunfinished, hsettled⟩ :=
    unfinished_rounds hlimit work jobs.length choices (rfl : Settled ⟨[], [], jobs⟩)
  refine hsettled.finished ?_
  rw [hunfinished]
  simp [unfinished]

/-- There is a run that finishes. -/
theorem exists_finished_run (hlimit : 0 < limit) (work : α → β) (jobs : List α) :
    ∃ pool, Run limit work ⟨[], [], jobs⟩ pool ∧ pool.Finished :=
  ⟨_, run_rounds limit work jobs.length [] _, finished_rounds hlimit [] work jobs⟩

/-- What a pool hands on are the results in the order of the jobs: neither the limit nor the
choices matter. -/
theorem map_eq_map (limit : Nat) (choices : List Nat) (work : α → β) (jobs : List α) :
    Pool.map limit choices work jobs = jobs.map work :=
  handedOn_of_finished (run_rounds _ work jobs.length choices _)
    (finished_rounds (Nat.le_max_right limit 1) choices work jobs)

end CodeTrail.Code.Pool
