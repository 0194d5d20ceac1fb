/-!
# A bounded pool of jobs

Jobs are worked on side by side, at most a given number at a time, and their results are handed on
in the order of the jobs. A job that is done while an earlier one still runs keeps its place until
then. Which of the running jobs is done next is up to the circumstances: `Pool.map` takes the
choices as a list of numbers, each counted off among the running jobs, and the first of them where
the list has ended.
-/

set_option autoImplicit false
set_option relaxedAutoImplicit false

namespace CodeTrail.Code

/-- The state of a pool: results handed on, jobs in flight in their order, each still running or
done, and jobs that wait. -/
structure Pool (α β : Type) where
  handedOn : List β
  flight : List (α ⊕ β)
  waiting : List α

namespace Pool

variable {α β : Type}

/-- Starts waiting jobs while there is room. -/
def start (limit : Nat) (pool : Pool α β) : Pool α β :=
  let room := limit - pool.flight.length
  { pool with
    flight := pool.flight ++ (pool.waiting.take room).map .inl
    waiting := pool.waiting.drop room }

/-- Completes the running job at a place among the running ones. -/
def complete (work : α → β) : Nat → List (α ⊕ β) → List (α ⊕ β)
  | _, [] => []
  | place, .inr result :: rest => .inr result :: complete work place rest
  | 0, .inl job :: rest => .inr (work job) :: rest
  | place + 1, .inl job :: rest => .inl job :: complete work place rest

/-- The results at the front of the jobs in flight, and the jobs behind them. -/
def ready : List (α ⊕ β) → List β × List (α ⊕ β)
  | .inr result :: rest =>
    let (results, flight) := ready rest
    (result :: results, flight)
  | flight => ([], flight)

/-- Hands on the results that no running job holds up. -/
def handOn (pool : Pool α β) : Pool α β :=
  let (results, flight) := ready pool.flight
  { pool with handedOn := pool.handedOn ++ results, flight := flight }

/-- Starts jobs, completes the chosen one and hands results on. -/
def round (limit : Nat) (work : α → β) (choice : Nat) (pool : Pool α β) : Pool α β :=
  let pool := pool.start limit
  let running := pool.flight.countP Sum.isLeft
  { pool with flight := complete work (choice % running) pool.flight }.handOn

/-- Runs a pool for a number of rounds. -/
def rounds (limit : Nat) (work : α → β) : Nat → List Nat → Pool α β → Pool α β
  | 0, _, pool => pool
  | count + 1, choices, pool =>
    rounds limit work count choices.tail (round limit work (choices.headD 0) pool)

/-- The results of jobs in their order, worked on at most `limit` at a time; a limit of zero counts
as one. -/
def map (limit : Nat) (choices : List Nat) (work : α → β) (jobs : List α) : List β :=
  (rounds (max limit 1) work jobs.length choices ⟨[], [], jobs⟩).handedOn

end Pool

end CodeTrail.Code
