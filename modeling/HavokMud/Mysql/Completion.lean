import Mathlib.Data.List.Basic
import Mathlib.Data.Int.Basic
import Mathlib.Logic.Function.Basic

/-!
# Completing a query

The body of the loop of `MysqlThread`, with the array of arguments that a query owns, and with the
variables `res` and `insertid` that decide whether its callback or chain function runs.  `insertid`
keeps its value from one query to the next.
-/

namespace HavokMud.Mysql.Completion

/-- The functions given to `db_queue_query` for the result of a query. -/
inductive Callback
  | getSetting
  | loadAccount
  | insertId
  | getPcList
  | loadPc
  | loadPcAttribs
  | findPc
deriving DecidableEq

inductive ChainFunc
  | setSetting
  | saveAccount
  | savePc
  | savePcAttribs
deriving DecidableEq

/-- A query on `QueryQ`.  Its arguments are an array, given by its number. -/
structure Item where
  callback : Option Callback
  chain : Option ChainFunc
  queryData : Option ℕ
  queryDataCount : ℕ
deriving DecidableEq

/-- What `db_query` does: it finds the buffer too small, gets an error that is not a lost
connection, or stores the result.  A statement that is no `SELECT` has no rows. -/
inductive Outcome
  | overflow
  | error
  | stored (rows : Option ℕ) (insertid : ℤ)
deriving DecidableEq

def Outcome.rows : Outcome → Option ℕ
  | .stored rows _ => rows
  | _ => none

def Outcome.failed : Outcome → Bool
  | .stored _ _ => false
  | _ => true

/-- What happens to arrays, buffers and functions.  A buffer is named by its array and its place in
it when it was bound. -/
inductive Event
  | passed (array : ℕ)
  | callback (callback : Callback)
  | chain (chain : ChainFunc)
  | freeBuffer (array place : ℕ)
  | freeArray (array : ℕ)
deriving DecidableEq

/-- An array is the list of its buffers, with nothing for an argument that is NULL. -/
structure State where
  queue : List Item
  arrays : ℕ → List (Option ℕ)
  nextArray : ℕ
  insertid : ℤ
  trace : List Event

/-- The start, where `insertid` is not initialised. -/
def State.initial (insertid : ℤ) : State :=
  ⟨[], fun _ ↦ [], 0, insertid, []⟩

/-! ## Chain functions -/

/-- How a chain function moves the arguments, if it found a row. -/
def ChainFunc.moved {α : Type} (found : Bool) : ChainFunc → List α → List α
  | .setSetting, a :: b :: rest => if found then b :: a :: rest else a :: b :: rest
  | .saveAccount, a :: b :: c :: d :: e :: f :: rest => b :: c :: d :: e :: f :: a :: rest
  | .savePc, a :: b :: c :: rest => b :: c :: a :: rest
  | .savePcAttribs, a :: b :: c :: rest =>
      if found then c :: a :: b :: rest else a :: b :: c :: rest
  | _, list => list

/-- The number of arguments of the query that a chain function queues. -/
def ChainFunc.count (found : Bool) : ChainFunc → ℕ
  | .setSetting => 2
  | .saveAccount => if found then 6 else 5
  | .savePc => if found then 3 else 2
  | .savePcAttribs => 3

/-- The callback of the query that a chain function queues. -/
def ChainFunc.callback (found : Bool) : ChainFunc → Option Callback
  | .saveAccount | .savePc => if found then none else some .insertId
  | _ => none

/-- The query that a chain function queues. -/
def ChainFunc.next (chain : ChainFunc) (found : Bool) (queryData : Option ℕ) : Item :=
  ⟨chain.callback found, none, queryData, chain.count found⟩

/-! ## The loop -/

/-- `insertid` behind `db_query`, which only writes it on success. -/
def Outcome.insertidAfter (outcome : Outcome) (insertid : ℤ) : ℤ :=
  match outcome with
  | .stored _ insertid => insertid
  | _ => insertid

/-- Whether `res` or `insertid` is set. -/
def State.answers (s : State) (outcome : Outcome) : Bool :=
  outcome.rows.isSome || outcome.insertidAfter s.insertid ≠ 0

/-- Whether rows were found. -/
def Outcome.found (outcome : Outcome) : Bool :=
  outcome.rows.any fun count ↦ count ≠ 0

/-- The chain function that runs. -/
def State.chained (s : State) (item : Item) (outcome : Outcome) : Option ChainFunc :=
  if s.answers outcome ∧ item.callback = none then item.chain else none

/-- The callback that runs. -/
def State.calledBack (s : State) (item : Item) (outcome : Outcome) : Option Callback :=
  if s.answers outcome then item.callback else none

/-- The buffers that are freed, which only a query without a chain function does. -/
def State.freed (s : State) (item : Item) (array : ℕ) : List Event :=
  if item.chain = none then
    ((s.arrays array).take item.queryDataCount).filterMap fun buffer ↦
      buffer.map (Event.freeBuffer array)
  else []

/-- What one round of the loop does to the array and the buffers of a query. -/
def State.events (s : State) (item : Item) (outcome : Outcome) : List Event :=
  (item.queryData.toList.map Event.passed) ++
    ((s.calledBack item outcome).toList.map Event.callback) ++
      ((s.chained item outcome).toList.map Event.chain) ++
        item.queryData.toList.flatMap fun array ↦ s.freed item array ++ [.freeArray array]

/-- One round of the loop. -/
def State.complete (s : State) (item : Item) (rest : List Item) (outcome : Outcome) : State where
  queue := rest ++ (s.chained item outcome).toList.map fun chain ↦
    chain.next outcome.found item.queryData
  arrays :=
    match s.chained item outcome, item.queryData with
    | some chain, some array =>
        Function.update s.arrays array (chain.moved outcome.found (s.arrays array))
    | _, _ => s.arrays
  nextArray := s.nextArray
  insertid := outcome.insertidAfter s.insertid
  trace := s.trace ++ s.events item outcome

/-- `db_queue_query` with a new array, whose arguments are NULL or not, or without one. -/
def State.queueQuery (s : State) (callback : Option Callback) (chain : Option ChainFunc)
    (args : Option (List Bool)) : State :=
  match args with
  | none => { s with queue := s.queue ++ [⟨callback, chain, none, 0⟩] }
  | some args => { s with
      queue := s.queue ++ [⟨callback, chain, some s.nextArray, args.length⟩]
      arrays := Function.update s.arrays s.nextArray
        (args.mapIdx fun place isNull ↦ if isNull then none else some place)
      nextArray := s.nextArray + 1 }

inductive Action
  | queue (callback : Option Callback) (chain : Option ChainFunc) (args : Option (List Bool))
  | complete (outcome : Outcome)
deriving DecidableEq

def step (s : State) : Action → Option State
  | .queue callback chain args => some (s.queueQuery callback chain args)
  | .complete outcome =>
      match s.queue with
      | [] => none
      | item :: rest => some (s.complete item rest outcome)

/-- The states reached by steps that meet `guard`. -/
inductive Run (guard : State → Action → Prop) : State → Prop
  | start (insertid : ℤ) : Run guard (.initial insertid)
  | next {s s' : State} {a : Action} : Run guard s → guard s a → step s a = some s' → Run guard s'

end HavokMud.Mysql.Completion
