import IntScript.Parse
import IntScript.Run

/-!
# Sessions

A session keeps environments and evaluators. An environment has variables of its own and a function
table that it shares with every environment it was copied from or copied to: they are of one
lineage. An evaluator keeps an environment and a terminal value between its runs.

* `Env`, `Evaluator`, `Session` : the state, `Session.initial` with one environment;
* `Session.Command`, `Session.Answer` : what can be asked of a session and what it answers;
* `Session.Code` : a program in a command, as text or as a tree;
* `Session.step` : the answer to a command and the state after it.
-/

namespace IntScript

/-- Variables, and the number of the function table that goes with them. -/
structure Env where
  vars : Vars
  lineage : Nat

/-- An environment in which programs are run one after the other. -/
structure Evaluator where
  env : Env
  /-- The terminal value, once a `return` was executed. -/
  result : Option Int64
  /-- Everything printed so far. -/
  output : String

/-- Environments, evaluators, and the function tables of the lineages. -/
structure Session where
  tables : Array FunTable
  envs : Array Env
  evaluators : Array Evaluator

/-- One empty environment. -/
def Session.initial : Session := ⟨#[∅], #[⟨∅, 0⟩], #[]⟩

namespace Session

/-- A program as it is handed in. -/
inductive Code where
  | text (source : String)
  | tree (block : Block)

/-- The block of a program, or why its text is none. -/
def Code.block : Code → Except ParseError Block
  | .text source => parse source
  | .tree b => .ok b

/-- What can be asked of a session. Environments and evaluators are named by their numbers. -/
inductive Command where
  /-- Makes an environment with a function table of its own. -/
  | new
  /-- Copies an environment. -/
  | clone (env : Nat)
  /-- Copies an environment and binds names in the copy, in order. -/
  | activation (env : Nat) (bindings : List (String × Int64))
  /-- Binds a variable, whether it is bound or not. -/
  | declare (env : Nat) (name : String) (value : Int64)
  /-- Changes a variable that is bound. -/
  | assign (env : Nat) (name : String) (value : Int64)
  | isBound (env : Nat) (name : String)
  | lookup (env : Nat) (name : String)
  | register (env : Nat) (name : String) (params : List String) (body : Code)
  | resolve (env : Nat) (name : String)
  /-- Compares what two names are registered for. -/
  | same (env : Nat) (name name' : String)
  /-- Makes an evaluator, in a copy of an environment or in a new one. -/
  | evaluator (env : Option Nat)
  | run (evaluator : Nat) (program : Code)
  | result (evaluator : Nat)
  | output (evaluator : Nat)
  /-- Copies the environment of an evaluator. -/
  | envOf (evaluator : Nat)

/-- What a session answers. -/
inductive Answer where
  | done
  /-- The number of a new environment. -/
  | env (index : Nat)
  /-- The number of a new evaluator. -/
  | evaluator (index : Nat)
  | truth (b : Bool)
  | value (v : Int64)
  | fault (e : Fault)
  | badProgram (e : ParseError)
  | function (d : Option FunDef)
  | result (v : Option Int64)
  | output (text : String)
  /-- The terminal value after a run, and what the run has printed. -/
  | ran (result : Option Int64) (output : String)
  /-- The fault that ended a run, and what the run has printed. -/
  | faulted (e : Fault) (output : String)
  /-- There is no environment or evaluator of that number. -/
  | unknown

/-- The function table of an environment. -/
def table (s : Session) (env : Env) : FunTable := s.tables.getD env.lineage ∅

/-- Adds an environment. -/
def addEnv (s : Session) (env : Env) : Session × Answer :=
  ({ s with envs := s.envs.push env }, .env s.envs.size)

/-- Adds an evaluator in which nothing was run. -/
def addEvaluator (s : Session) (env : Env) : Session × Answer :=
  ({ s with evaluators := s.evaluators.push ⟨env, none, ""⟩ }, .evaluator s.evaluators.size)

/-- Adds a function table for a new lineage, and gives an empty environment of it. -/
def addLineage (s : Session) : Session × Env :=
  ({ s with tables := s.tables.push ∅ }, ⟨∅, s.tables.size⟩)

/-- What is asked of an environment, if there is one of that number. -/
def withEnv (s : Session) (index : Nat) (answer : Env → Session × Answer) : Session × Answer :=
  match s.envs[index]? with
  | some env => answer env
  | none => (s, .unknown)

/-- The session with other variables in an environment. -/
def setVars (s : Session) (index : Nat) (env : Env) (vars : Vars) : Session :=
  { s with envs := s.envs.setIfInBounds index { env with vars } }

/-- The session after a run of an evaluator that has reached the state `r`. -/
def afterRun (s : Session) (index : Nat) (e : Evaluator) (r : State Buffer) : Session :=
  { s with
    tables := s.tables.setIfInBounds e.env.lineage r.functions
    evaluators := s.evaluators.setIfInBounds index
      ⟨{ e.env with vars := r.vars }, r.result, e.output ++ r.sink.text⟩ }

/-- Runs a block in an evaluator; `none` for want of fuel. -/
def runIn (fuel : Nat) (s : Session) (index : Nat) (e : Evaluator) (b : Block) :
    Option (Session × Answer) :=
  match runBlock fuel b ⟨e.env.vars, e.result, s.table e.env, Buffer.empty⟩ with
  | .done v r => some (s.afterRun index e r, .ran v r.sink.text)
  | .fault e' r => some (s.afterRun index e r, .faulted e' r.sink.text)
  | .unfinished _ => none

/-- The answer to a command and the session after it; `none` if a run takes more fuel. -/
def step (fuel : Nat) (s : Session) : Command → Option (Session × Answer)
  | .new => let (s, env) := s.addLineage; some (s.addEnv env)
  | .clone i => some <| s.withEnv i s.addEnv
  | .activation i bindings =>
    some <| s.withEnv i fun env => s.addEnv { env with vars := env.vars.bindAll bindings }
  | .declare i x v =>
    some <| s.withEnv i fun env => (s.setVars i env (env.vars.insert x v), .done)
  | .assign i x v => some <| s.withEnv i fun env =>
    if x ∈ env.vars then (s.setVars i env (env.vars.insert x v), .done)
    else (s, .fault (.variableNotFound x))
  | .isBound i x => some <| s.withEnv i fun env => (s, .truth (decide (x ∈ env.vars)))
  | .lookup i x => some <| s.withEnv i fun env =>
    match env.vars[x]? with
    | some v => (s, .value v)
    | none => (s, .fault (.variableNotFound x))
  | .register i f params body => some <| s.withEnv i fun env =>
    match body.block with
    | .error e => (s, .badProgram e)
    | .ok b =>
      ({ s with
        tables := s.tables.setIfInBounds env.lineage ((s.table env).insert f ⟨params, b⟩) }, .done)
  | .resolve i f => some <| s.withEnv i fun env => (s, .function (s.table env)[f]?)
  | .same i f g => some <| s.withEnv i fun env =>
    (s, .truth (decide ((s.table env)[f]? = (s.table env)[g]?)))
  | .evaluator none => let (s, env) := s.addLineage; some (s.addEvaluator env)
  | .evaluator (some i) => some <| s.withEnv i s.addEvaluator
  | .run i program =>
    match s.evaluators[i]?, program.block with
    | none, _ => some (s, .unknown)
    | some _, .error e => some (s, .badProgram e)
    | some e, .ok b => s.runIn fuel i e b
  | .result i => some <| match s.evaluators[i]? with
    | some e => (s, .result e.result)
    | none => (s, .unknown)
  | .output i => some <| match s.evaluators[i]? with
    | some e => (s, .output e.output)
    | none => (s, .unknown)
  | .envOf i => some <| match s.evaluators[i]? with
    | some e => s.addEnv e.env
    | none => (s, .unknown)

/-- The answers to commands, one after the other. -/
def answers (fuel : Nat) (s : Session) : List Command → Option (List Answer)
  | [] => some []
  | c :: cs => do
    let (s, a) ← s.step fuel c
    let as ← s.answers fuel cs
    return a :: as

end Session

end IntScript
