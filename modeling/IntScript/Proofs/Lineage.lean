import IntScript.Proofs.Eval.Events
import IntScript.Session

/-!
# Lineages

Every environment descends from one that was made new, by copies. All environments of one lineage
see the same functions: those that were registered last through any of them.

* `Genealogy` : the lineages of environments and evaluators, `Genealogy.after` a command;
* `Registration` : a function that was registered in a lineage, `Session.registrations` : those of a
  command, `ofLineage` : those of a lineage;
* `History` : what commands have led to, from the initial session;
* `Accounts`, `History.accounts` : the function tables are those of the registrations;
* `resolve_latest` : what a name is resolved to is its last registration in the lineage.
-/

namespace IntScript

/-! ## Genealogies -/

/-- The lineages of the environments and of the evaluators, and how many lineages there are. -/
structure Genealogy where
  envs : Array Nat
  evaluators : Array Nat
  lineages : Nat

namespace Genealogy

/-- One environment. -/
def initial : Genealogy := ⟨#[0], #[], 1⟩

/-- An environment more, of a lineage that there is. -/
def addEnv (g : Genealogy) : Option Nat → Genealogy
  | some l => { g with envs := g.envs.push l }
  | none => g

/-- An evaluator more, of a lineage that there is. -/
def addEvaluator (g : Genealogy) : Option Nat → Genealogy
  | some l => { g with evaluators := g.evaluators.push l }
  | none => g

/-- What becomes of the lineages by a command: only what is made new begins one. -/
def after (g : Genealogy) : Session.Command → Genealogy
  | .new => { g with envs := g.envs.push g.lineages, lineages := g.lineages + 1 }
  | .clone i => g.addEnv g.envs[i]?
  | .activation i _ => g.addEnv g.envs[i]?
  | .evaluator none =>
    { g with evaluators := g.evaluators.push g.lineages, lineages := g.lineages + 1 }
  | .evaluator (some i) => g.addEvaluator g.envs[i]?
  | .envOf i => g.addEnv g.evaluators[i]?
  | _ => g

end Genealogy

/-! ## Registrations -/

/-- A function that was registered through an environment of a lineage. -/
structure Registration where
  lineage : Nat
  name : String
  function : FunDef

/-- The registrations in a lineage. -/
def ofLineage (l : Nat) (log : List Registration) : List (String × FunDef) :=
  log.filterMap fun r => if r.lineage = l then some (r.name, r.function) else none

/-- The state in which an evaluator runs a block. -/
def Session.startOf (s : Session) (e : Evaluator) : State Buffer :=
  ⟨e.env.vars, e.result, s.table e.env, Buffer.empty⟩

/-- The functions that a command registers, in order: with `register`, one; with a run, those of the
declarations that are executed, in calls, too, and also if the run faults. -/
def Session.registrations (fuel : Nat) (s : Session) (g : Genealogy) :
    Session.Command → List Registration
  | .register i f params body =>
    match g.envs[i]?, body.block with
    | some l, .ok b => [⟨l, f, ⟨params, b⟩⟩]
    | _, _ => []
  | .run i program =>
    match g.evaluators[i]?, s.evaluators[i]?, program.block with
    | some l, some e, .ok b =>
      ((runEvents fuel b (s.startOf e)).filterMap Event.registration?).map fun r => ⟨l, r.1, r.2⟩
    | _, _, _ => []
  | _ => []

/-- What any commands have led to from the initial session: a session, the lineages in it, and the
functions that were registered. -/
inductive History : Session → Genealogy → List Registration → Prop where
  | initial : History .initial .initial []
  | step {s s' : Session} {g : Genealogy} {log : List Registration} (fuel : Nat)
    (c : Session.Command) {a : Session.Answer} (h : History s g log)
    (hs : s.step fuel c = some (s', a)) :
    History s' (g.after c) (log ++ s.registrations fuel g c)

/-- The last registration of a name in a lineage: what it is, or that there is none. -/
def IsLatest (l : Nat) (f : String) (log : List Registration) : Option FunDef → Prop
  | some d => ∃ before after, log = before ++ ⟨l, f, d⟩ :: after ∧ ∀ d', ⟨l, f, d'⟩ ∉ after
  | none => ∀ d, ⟨l, f, d⟩ ∉ log

/-! ## The function tables -/

theorem ofLineage_append (l : Nat) (log log' : List Registration) :
    ofLineage l (log ++ log') = ofLineage l log ++ ofLineage l log' :=
  List.filterMap_append

/-- The registrations of one lineage. -/
theorem ofLineage_map (l l' : Nat) (rs : List (String × FunDef)) :
    ofLineage l (rs.map fun r => ⟨l', r.1, r.2⟩) = if l' = l then rs else [] := by
  unfold ofLineage
  rw [List.filterMap_map]
  split
  case isTrue h =>
    subst h
    change rs.filterMap (fun r => if l' = l' then some (r.1, r.2) else none) = rs
    simp
  case isFalse h => exact List.filterMap_eq_nil_iff.2 fun r _ => if_neg h

theorem latest_ofLineage_single (l : Nat) (f : String) (r : Registration) :
    latest f (ofLineage l [r]) = if r.lineage = l ∧ r.name = f then some r.function else none := by
  unfold ofLineage latest
  by_cases hl : r.lineage = l <;> by_cases hf : r.name = f <;> simp [hl, hf]

theorem isLatest_latest (l : Nat) (f : String) (log : List Registration) :
    IsLatest l f log (latest f (ofLineage l log)) := by
  induction log with
  | nil => exact fun _ => List.not_mem_nil
  | cons r log ih =>
    rw [← List.singleton_append, ofLineage_append, latest_append, latest_ofLineage_single]
    cases hlog : latest f (ofLineage l log) with
    | some d =>
      rw [hlog] at ih
      obtain ⟨before, after, rfl, hafter⟩ := ih
      exact ⟨r :: before, after, rfl, hafter⟩
    | none =>
      rw [hlog] at ih
      rw [Option.none_or]
      split
      case isTrue hr =>
        obtain ⟨rfl, rfl⟩ := hr
        exact ⟨[], log, rfl, ih⟩
      case isFalse hr =>
        intro d hd
        rcases List.mem_cons.1 hd with rfl | hd
        · exact hr ⟨rfl, rfl⟩
        · exact ih d hd

/-- What an element has in common with the one that it replaces. -/
theorem map_setIfInBounds {α β : Type} {f : α → β} {xs : Array α} {i : Nat} {x y : α}
    (hx : xs[i]? = some x) (hf : f y = f x) : (xs.setIfInBounds i y).map f = xs.map f := by
  refine Array.ext_getElem? fun j => ?_
  simp only [Array.getElem?_map, Array.getElem?_setIfInBounds]
  split
  case isTrue hij =>
    subst hij
    split
    case isTrue => rw [hx, Option.map_some, Option.map_some, hf]
    case isFalse hi => rw [Array.getElem?_eq_none (Nat.le_of_not_lt hi)]
  case isFalse => rfl

/-- The genealogy is that of the session, and each function table has what was registered last in
its lineage. -/
structure Accounts (s : Session) (g : Genealogy) (log : List Registration) : Prop where
  envs : g.envs = s.envs.map Env.lineage
  evaluators : g.evaluators = s.evaluators.map (·.env.lineage)
  lineages : g.lineages = s.tables.size
  env_lt : ∀ env ∈ s.envs, env.lineage < s.tables.size
  evaluator_lt : ∀ e ∈ s.evaluators, e.env.lineage < s.tables.size
  tables : ∀ l f, (s.tables.getD l ∅)[f]? = latest f (ofLineage l log)

namespace Accounts

theorem initial : Accounts .initial .initial [] where
  envs := by simp [Genealogy.initial, Session.initial]
  evaluators := by simp [Genealogy.initial, Session.initial]
  lineages := rfl
  env_lt := by simp [Session.initial]
  evaluator_lt := by simp [Session.initial]
  tables l f := by
    cases l <;> simp [Session.initial, latest, ofLineage]

variable {s : Session} {g : Genealogy} {log : List Registration} (h : Accounts s g log)
include h

theorem getElem?_envs (i : Nat) : g.envs[i]? = s.envs[i]?.map Env.lineage := by
  rw [h.envs, Array.getElem?_map]

theorem getElem?_evaluators (i : Nat) :
    g.evaluators[i]? = s.evaluators[i]?.map (·.env.lineage) := by
  rw [h.evaluators, Array.getElem?_map]

/-- A copy of an environment. -/
theorem addEnv (env : Env) (henv : env.lineage < s.tables.size) :
    Accounts (s.addEnv env).1 (g.addEnv (some env.lineage)) log where
  envs := by simp [Genealogy.addEnv, Session.addEnv, h.envs]
  evaluators := h.evaluators
  lineages := h.lineages
  env_lt e he := by
    rcases Array.mem_push.1 he with he | rfl
    · exact h.env_lt e he
    · exact henv
  evaluator_lt := h.evaluator_lt
  tables := h.tables

/-- An evaluator in a copy of an environment. -/
theorem addEvaluator (env : Env) (henv : env.lineage < s.tables.size) :
    Accounts (s.addEvaluator env).1 (g.addEvaluator (some env.lineage)) log where
  envs := h.envs
  evaluators := by simp [Genealogy.addEvaluator, Session.addEvaluator, h.evaluators]
  lineages := h.lineages
  env_lt := h.env_lt
  evaluator_lt e he := by
    rcases Array.mem_push.1 he with he | rfl
    · exact h.evaluator_lt e he
    · exact henv
  tables := h.tables

/-- A new lineage, in which nothing is registered. -/
theorem addLineage : Accounts s.addLineage.1 { g with lineages := g.lineages + 1 } log where
  envs := h.envs
  evaluators := h.evaluators
  lineages := by simp [Session.addLineage, h.lineages]
  env_lt e he := by
    have := h.env_lt e he
    simp only [Session.addLineage, Array.size_push]
    omega
  evaluator_lt e he := by
    have := h.evaluator_lt e he
    simp only [Session.addLineage, Array.size_push]
    omega
  tables l f := by
    rw [← h.tables]
    simp only [Session.addLineage, Array.getD_eq_getD_getElem?, Array.getElem?_push]
    split
    case isTrue hl => simp [hl]
    case isFalse => rfl

/-- Other variables in an environment. -/
theorem setVars {i : Nat} {env : Env} (henv : s.envs[i]? = some env) (vars : Vars) :
    Accounts (s.setVars i env vars) g log where
  envs := by
    have hl : Env.lineage ⟨vars, env.lineage⟩ = Env.lineage env := rfl
    rw [h.envs]
    exact (map_setIfInBounds henv hl).symm
  evaluators := h.evaluators
  lineages := h.lineages
  env_lt e he := by
    rcases Array.mem_or_eq_of_mem_setIfInBounds he with he | rfl
    · exact h.env_lt e he
    · exact h.env_lt env (Array.mem_of_getElem? henv)
  evaluator_lt := h.evaluator_lt
  tables := h.tables

/-- A function table after further registrations in its lineage. -/
theorem getElem?_registerAll (l : Nat) (rs : List (String × FunDef)) (f : String) :
    ((s.tables.getD l ∅ : FunTable).registerAll rs)[f]? =
      latest f (ofLineage l (log ++ rs.map fun r => ⟨l, r.1, r.2⟩)) := by
  rw [ofLineage_append, ofLineage_map, if_pos rfl, latest_append, ← h.tables]
  exact FunTable.getElem?_registerAll _ rs f

/-- Registrations in a lineage. -/
theorem register {l : Nat} (hl : l < s.tables.size) (rs : List (String × FunDef)) :
    Accounts
      { s with tables := s.tables.setIfInBounds l ((s.tables.getD l ∅ : FunTable).registerAll rs) }
      g (log ++ rs.map fun r => ⟨l, r.1, r.2⟩) where
  envs := h.envs
  evaluators := h.evaluators
  lineages := by simp [h.lineages]
  env_lt := by simpa using h.env_lt
  evaluator_lt := by simpa using h.evaluator_lt
  tables l' f := by
    by_cases hll : l = l'
    · subst hll
      rw [← h.getElem?_registerAll]
      simp [Array.getD_eq_getD_getElem?, hl]
    · rw [ofLineage_append, ofLineage_map, if_neg hll, List.append_nil, ← h.tables]
      simp [Array.getD_eq_getD_getElem?, hll]

omit h in
/-- What is asked of an environment, if there is one of that number. -/
theorem withEnv {i : Nat} {answer : Env → Session × Session.Answer} {g' : Genealogy}
    {log' : List Registration} (hnone : s.envs[i]? = none → Accounts s g' log')
    (hsome : ∀ env, s.envs[i]? = some env → Accounts (answer env).1 g' log') :
    Accounts (s.withEnv i answer).1 g' log' := by
  unfold Session.withEnv
  cases henv : s.envs[i]? with
  | none => exact hnone henv
  | some env => exact hsome env henv

/-- Nothing was registered. -/
theorem silent : Accounts s g (log ++ []) := by
  rwa [List.append_nil]

/-- A copy of an environment that there may be. -/
theorem copy (i : Nat) (vars : Env → Vars) :
    Accounts (s.withEnv i fun env => s.addEnv { env with vars := vars env }).1
      (g.addEnv g.envs[i]?) (log ++ []) := by
  rw [h.getElem?_envs]
  refine withEnv (fun hi => hi ▸ h.silent) fun env hi => ?_
  have hlt : env.lineage < s.tables.size := h.env_lt env (Array.mem_of_getElem? hi)
  rw [hi]
  exact (h.addEnv ⟨vars env, env.lineage⟩ hlt).silent

/-- Another state of an evaluator, of the same lineage. -/
theorem setEvaluator {i : Nat} {e e' : Evaluator} (he : s.evaluators[i]? = some e)
    (hl : e'.env.lineage = e.env.lineage) :
    Accounts { s with evaluators := s.evaluators.setIfInBounds i e' } g log where
  envs := h.envs
  evaluators := h.evaluators.trans (map_setIfInBounds he hl).symm
  lineages := h.lineages
  env_lt := h.env_lt
  evaluator_lt e'' he'' := by
    rcases Array.mem_or_eq_of_mem_setIfInBounds he'' with he'' | rfl
    · exact h.evaluator_lt e'' he''
    · exact hl ▸ h.evaluator_lt e (Array.mem_of_getElem? he)
  tables := h.tables

/-- A run registers the functions of the declarations that it executes, however it ends. -/
theorem runIn {fuel i : Nat} {e : Evaluator} {b : Block} {s' : Session} {a : Session.Answer}
    (he : s.evaluators[i]? = some e) (hs : s.runIn fuel i e b = some (s', a)) :
    Accounts s' g (log ++ ((runEvents fuel b (s.startOf e)).filterMap Event.registration?).map
      fun r => ⟨e.env.lineage, r.1, r.2⟩) := by
  have hfun := (runBlock_reports fuel b (s.startOf e)).functions
  have hs' : s' = s.afterRun i e (runBlock fuel b (s.startOf e)).state := by
    unfold Session.startOf
    unfold Session.runIn at hs
    split at hs
    case h_1 v r hr =>
      rw [hr]
      cases hs
      rfl
    case h_2 e' r hr =>
      rw [hr]
      cases hs
      rfl
    case h_3 => cases hs
  rw [hs']
  unfold Session.afterRun
  rw [hfun]
  have hlt : e.env.lineage < s.tables.size := h.evaluator_lt e (Array.mem_of_getElem? he)
  exact (h.register hlt _).setEvaluator he rfl

/-- What a command does is accounted for. -/
theorem step {fuel : Nat} {c : Session.Command} {s' : Session} {a : Session.Answer}
    (hs : s.step fuel c = some (s', a)) :
    Accounts s' (g.after c) (log ++ s.registrations fuel g c) := by
  have hfst : ∀ {r : Session × Session.Answer}, some r = some (s', a) → s' = r.1 :=
    fun hr => by rw [Option.some.inj hr]
  have hnew : s.tables.size < s.addLineage.1.tables.size := by simp [Session.addLineage]
  match c with
  | .new =>
    rw [hfst hs]
    have hg : g.after .new =
        { g with lineages := g.lineages + 1 }.addEnv (some s.tables.size) := by
      simp only [Genealogy.after, Genealogy.addEnv, h.lineages]
    rw [hg]
    exact (h.addLineage.addEnv ⟨∅, s.tables.size⟩ hnew).silent
  | .clone i =>
    rw [hfst hs]
    exact h.copy i Env.vars
  | .activation i bindings =>
    rw [hfst hs]
    exact h.copy i fun env => env.vars.bindAll bindings
  | .declare i x v =>
    rw [hfst hs]
    exact withEnv (fun _ => h.silent) fun env hi => (h.setVars hi _).silent
  | .assign i x v =>
    rw [hfst hs]
    refine withEnv (fun _ => h.silent) fun env hi => ?_
    split
    · exact (h.setVars hi _).silent
    · exact h.silent
  | .isBound i x =>
    rw [hfst hs]
    exact withEnv (fun _ => h.silent) fun env hi => h.silent
  | .lookup i x =>
    rw [hfst hs]
    refine withEnv (fun _ => h.silent) fun env hi => ?_
    split <;> exact h.silent
  | .register i f params body =>
    rw [hfst hs]
    refine withEnv (fun hi => ?_) fun env hi => ?_
    · simp only [Session.registrations, h.getElem?_envs, hi]
      exact h.silent
    · simp only [Session.registrations, h.getElem?_envs, hi, Option.map_some]
      cases body.block with
      | error e => exact h.silent
      | ok b =>
        have hlt : env.lineage < s.tables.size := h.env_lt env (Array.mem_of_getElem? hi)
        exact h.register hlt [(f, ⟨params, b⟩)]
  | .resolve i f =>
    rw [hfst hs]
    exact withEnv (fun _ => h.silent) fun env hi => h.silent
  | .same i f f' =>
    rw [hfst hs]
    exact withEnv (fun _ => h.silent) fun env hi => h.silent
  | .evaluator none =>
    rw [hfst hs]
    have hg : g.after (.evaluator none) =
        { g with lineages := g.lineages + 1 }.addEvaluator (some s.tables.size) := by
      simp only [Genealogy.after, Genealogy.addEvaluator, h.lineages]
    rw [hg]
    exact (h.addLineage.addEvaluator ⟨∅, s.tables.size⟩ hnew).silent
  | .evaluator (some i) =>
    rw [hfst hs]
    simp only [Genealogy.after, h.getElem?_envs]
    refine withEnv (fun hi => ?_) fun env hi => ?_
    · rw [hi]
      exact h.silent
    · rw [hi]
      exact (h.addEvaluator env (h.env_lt env (Array.mem_of_getElem? hi))).silent
  | .run i program =>
    simp only [Session.step] at hs
    simp only [Session.registrations, h.getElem?_evaluators]
    cases he : s.evaluators[i]? with
    | none =>
      rw [he] at hs
      cases hs
      exact h.silent
    | some e =>
      rw [he] at hs
      cases hb : program.block with
      | error err =>
        rw [hb] at hs
        cases hs
        exact h.silent
      | ok b =>
        rw [hb] at hs
        exact h.runIn he hs
  | .result i =>
    rw [hfst hs]
    split <;> exact h.silent
  | .output i =>
    rw [hfst hs]
    split <;> exact h.silent
  | .envOf i =>
    rw [hfst hs]
    simp only [Genealogy.after, h.getElem?_evaluators]
    split
    case h_1 e he =>
      rw [he]
      exact (h.addEnv e.env (h.evaluator_lt e (Array.mem_of_getElem? he))).silent
    case h_2 he =>
      rw [he]
      exact h.silent

end Accounts

theorem History.accounts {s : Session} {g : Genealogy} {log : List Registration}
    (h : History s g log) : Accounts s g log := by
  induction h with
  | initial => exact .initial
  | step fuel c _ hs ih => exact ih.step hs

theorem Accounts.table {s : Session} {g : Genealogy} {log : List Registration}
    (h : Accounts s g log) (env : Env) (f : String) :
    IsLatest env.lineage f log (s.table env)[f]? := by
  unfold Session.table
  rw [h.tables]
  exact isLatest_latest env.lineage f log

/-- **Lineages**: after any commands, a name is resolved, in an environment and in that of an
evaluator, to its last registration in the lineage, or to nothing if there is none. So it is where a
run in an evaluator ends, faults or breaks off, with what it has registered until then. -/
theorem resolve_latest {s : Session} {g : Genealogy} {log : List Registration}
    (h : History s g log) :
    (∀ i env, s.envs[i]? = some env → ∃ l, g.envs[i]? = some l ∧ ∀ f,
      IsLatest l f log (s.table env)[f]? ∧
      ∀ fuel, s.step fuel (.resolve i f) = some (s, .function (s.table env)[f]?)) ∧
    ∀ i e, s.evaluators[i]? = some e → ∃ l, g.evaluators[i]? = some l ∧ ∀ f,
      IsLatest l f log (s.table e.env)[f]? ∧
      ∀ fuel b, IsLatest l f (log ++ s.registrations fuel g (.run i (.tree b)))
        (runBlock fuel b (s.startOf e)).state.functions[f]? := by
  have ha := h.accounts
  constructor
  · intro i env henv
    have hl : g.envs[i]? = some env.lineage := by
      rw [ha.getElem?_envs, henv]
      rfl
    refine ⟨env.lineage, hl, fun f => ⟨ha.table env f, fun fuel => ?_⟩⟩
    simp only [Session.step, Session.withEnv, henv]
  · intro i e he
    have hl : g.evaluators[i]? = some e.env.lineage := by
      rw [ha.getElem?_evaluators, he]
      rfl
    refine ⟨e.env.lineage, hl, fun f => ⟨ha.table e.env f, fun fuel b => ?_⟩⟩
    have hrun : s.registrations fuel g (.run i (.tree b)) =
        ((runEvents fuel b (s.startOf e)).filterMap Event.registration?).map
          fun r => ⟨e.env.lineage, r.1, r.2⟩ := by
      simp only [Session.registrations, Session.Code.block, hl, he]
    rw [hrun, (runBlock_reports fuel b (s.startOf e)).functions]
    have htable := ha.getElem?_registerAll e.env.lineage
      ((runEvents fuel b (s.startOf e)).filterMap Event.registration?) f
    exact htable ▸ isLatest_latest _ _ _

/-- A call that faults has executed a declaration. The function is seen through the environment from
which the evaluator was copied, and not in another lineage. -/
theorem resolve_latest_after_fault :
    let k : FunDef := ⟨[], [.ret (.lit 1)]⟩
    let fault : Expr := .bin .div (.lit 1) (.lit 0)
    let b : Block := [.function "f" [] [.function "k" [] k.body, .expr fault], .expr (.call "f" [])]
    ∃ s g log t, History s g log ∧
      s.step 20 (.run 0 (.tree b)) = some (t, .faulted .divisionByZero "") ∧
      ∃ env other, t.envs[0]? = some env ∧ t.envs[1]? = some other ∧
        (t.table env)["k"]? = some k ∧ (t.table other)["k"]? = none ∧
        IsLatest 0 "k" (log ++ s.registrations 20 g (.run 0 (.tree b))) (some k) ∧
        IsLatest 1 "k" (log ++ s.registrations 20 g (.run 0 (.tree b))) none := by
  intro k fault b
  have h : History _ _ _ := .step 20 (.evaluator (some 0)) (.step 20 .new .initial rfl) rfl
  obtain ⟨henv, -⟩ := resolve_latest (.step 20 (.run 0 (.tree b)) h rfl)
  obtain ⟨l, hl, hk⟩ := henv 0 _ rfl
  obtain ⟨l', hl', hother⟩ := henv 1 _ rfl
  obtain rfl : 0 = l := Option.some.inj hl
  obtain rfl : 1 = l' := Option.some.inj hl'
  exact ⟨_, _, _, _, h, rfl, _, _, rfl, rfl, rfl, rfl, (hk "k").1, (hother "k").1⟩

end IntScript
