import IntScript.Proofs.Lineage

/-!
# Environments are isolated

A command is applied to one environment or evaluator at most. It can change the variables of that
one, and the functions of its lineage.

* `Session.Object` : an environment or an evaluator, `Command.object` : the one that a command is
  applied to, `Session.ask` : the answer to a question about it;
* `Change` : of one entry of an array, `Change.apply_comm` : of two entries, in either order;
* `Effect` : what a command does to a session, `Effect.On` : where it does so (`exists_effect`);
* `Effect.envAt_apply`, `Effect.table_apply` : all other environments and lineages stay as they are;
* `Effect.apply_comm` : what is done in two lineages can be done in either order;
* `Session.Runs` : commands one after the other, with their answers;
* `environments_isolated` : isolation after any commands.
-/

namespace IntScript

namespace Session

/-! ## What commands are applied to -/

/-- The two kinds of things that a session keeps. -/
inductive ObjectKind where
  | env | evaluator
deriving DecidableEq

/-- An environment or an evaluator. -/
structure Object where
  kind : ObjectKind
  index : Nat
deriving DecidableEq

/-- What the command is applied to, if it is applied to anything. -/
def Command.object : Command → Option Object
  | .new | .evaluator none => none
  | .clone i | .activation i _ | .declare i _ _ | .assign i _ _ | .isBound i _ | .lookup i _
  | .register i _ _ _ | .resolve i _ | .same i _ _ | .evaluator (some i) => some ⟨.env, i⟩
  | .run i _ | .result i | .output i | .envOf i => some ⟨.evaluator, i⟩

/-- What the command makes, if it makes anything. -/
def Command.makes : Command → Option ObjectKind
  | .new | .clone _ | .activation _ _ | .envOf _ => some .env
  | .evaluator _ => some .evaluator
  | _ => none

/-- The environment, or that of the evaluator. -/
def envAt (s : Session) : Object → Option Env
  | ⟨.env, i⟩ => s.envs[i]?
  | ⟨.evaluator, i⟩ => s.evaluators[i]?.map Evaluator.env

/-- The answer to a question about an environment, or about a copy of that of an evaluator. -/
def ask (fuel : Nat) (s : Session) (question : Nat → Command) : Object → Option (List Answer)
  | ⟨.env, i⟩ => s.answers fuel [question i]
  | ⟨.evaluator, i⟩ => (s.answers fuel [.envOf i, question s.envs.size]).map List.tail

/-- A question that only looks at an environment is answered with what it sees there. -/
theorem ask_eq {fuel : Nat} {s : Session} {question : Nat → Command} {o : Object} {env : Env}
    (answer : FunTable → Env → Answer) (henv : s.envAt o = some env)
    (hq : ∀ (t : Session) (i : Nat), t.step fuel (question i) =
      some (t.withEnv i fun env => (t, answer (t.table env) env))) :
    s.ask fuel question o = some [answer (s.table env) env] := by
  obtain ⟨_ | _, i⟩ := o
  · change s.envs[i]? = some env at henv
    simp [ask, answers, hq, withEnv, henv]
  · obtain ⟨e, he, rfl⟩ := Option.map_eq_some_iff.1 henv
    have hstep : s.step fuel (.envOf i) = some (s.addEnv e.env) := by simp [step, he]
    have hget : (s.addEnv e.env).1.envs[s.envs.size]? = some e.env := by simp [addEnv]
    simp only [ask, answers, hstep, hq, withEnv, hget, Option.bind_eq_bind, Option.bind_some]
    rfl

end Session

/-- The lineage of an environment or evaluator. -/
def Genealogy.lineage (g : Genealogy) : Session.Object → Option Nat
  | ⟨.env, i⟩ => g.envs[i]?
  | ⟨.evaluator, i⟩ => g.evaluators[i]?

theorem Accounts.lineage {s : Session} {g : Genealogy} {log : List Registration}
    (h : Accounts s g log) (o : Session.Object) :
    g.lineage o = (s.envAt o).map Env.lineage := by
  obtain ⟨_ | _, i⟩ := o
  · exact h.getElem?_envs i
  · rw [Session.envAt, Option.map_map]
    exact h.getElem?_evaluators i

/-! ## Changes of arrays -/

/-- A change of one entry at most. -/
inductive Change (α : Type) where
  | keep
  /-- Another entry in the place of one that there is. -/
  | set (i : Nat) (x : α)
  /-- An entry more. -/
  | push (x : α)

namespace Change

variable {α : Type} {xs : Array α} {c c' : Change α} {i : Nat} {x : α}

def apply (xs : Array α) : Change α → Array α
  | keep => xs
  | set i x => xs.setIfInBounds i x
  | push x => xs.push x

/-- The place of the entry that becomes another. -/
def site : Change α → Option Nat
  | set i _ => some i
  | keep | push _ => none

/-- There is an entry more. -/
def Grows : Change α → Prop
  | push _ => True
  | keep | set _ _ => False

instance : DecidablePred (@Grows α)
  | push _ => isTrue trivial
  | keep | set _ _ => isFalse id

/-- All other entries stay as they are. -/
theorem getElem?_apply (hi : xs[i]? = some x) (hc : c.site ≠ some i) :
    (c.apply xs)[i]? = some x := by
  cases c with
  | keep => exact hi
  | set j y =>
    have hij : j ≠ i := fun h => hc (congrArg some h)
    rw [apply, Array.getElem?_setIfInBounds_ne hij, hi]
  | push y =>
    have hlt : i < xs.size := (Array.getElem?_eq_some_iff.1 hi).1
    rw [apply, Array.getElem?_push, if_neg (Nat.ne_of_lt hlt), hi]

theorem size_apply (hc : ¬c.Grows) : (c.apply xs).size = xs.size := by
  cases c with
  | keep => rfl
  | set i x => exact Array.size_setIfInBounds
  | push x => exact absurd trivial hc

theorem setIfInBounds_push (hi : i < xs.size) (x y : α) :
    (xs.push y).setIfInBounds i x = (xs.setIfInBounds i x).push y := by
  refine Array.ext_getElem? fun j => ?_
  simp only [Array.getElem?_push, Array.getElem?_setIfInBounds, Array.size_push,
    Array.size_setIfInBounds]
  grind

/-- Changes of different entries, not both of which add one, can be made in either order. -/
theorem apply_comm (hc : ∀ i, c.site = some i → i < xs.size)
    (hc' : ∀ i, c'.site = some i → i < xs.size) (hne : ∀ i, c.site = some i → c'.site ≠ some i)
    (hg : ¬(c.Grows ∧ c'.Grows)) : c'.apply (c.apply xs) = c.apply (c'.apply xs) := by
  cases c with
  | keep => rfl
  | set i x =>
    cases c' with
    | keep => rfl
    | set j y =>
      have hij : i ≠ j := fun h => hne i rfl (congrArg some h.symm)
      exact Array.setIfInBounds_comm x y hij
    | push y => exact (setIfInBounds_push (hc i rfl) x y).symm
  | push x =>
    cases c' with
    | keep => rfl
    | set j y => exact setIfInBounds_push (hc' j rfl) y x
    | push y => exact absurd ⟨trivial, trivial⟩ hg

end Change

/-! ## Effects -/

/-- What a command can do to a session. -/
structure Effect where
  tables : Change FunTable
  envs : Change Env
  evaluators : Change Evaluator

namespace Effect

open Session

/-- The session after the effect. -/
def apply (u : Effect) (s : Session) : Session :=
  ⟨u.tables.apply s.tables, u.envs.apply s.envs, u.evaluators.apply s.evaluators⟩

/-- There is an environment or an evaluator more. -/
def Makes (u : Effect) : ObjectKind → Prop
  | .env => u.envs.Grows
  | .evaluator => u.evaluators.Grows

/-- The answer to a command with the effect: the number of what it makes, or else `a`. -/
def answer (u : Effect) (a : Answer) (s : Session) : Answer :=
  if u.envs.Grows then .env s.envs.size
  else if u.evaluators.Grows then .evaluator s.evaluators.size
  else a

/-- What a command may do: make what commands of its kind make, change what it is applied to, and
the functions of the lineage of that. Only a command that is applied to nothing begins a lineage. -/
structure On (u : Effect) (s : Session) (c : Command) : Prop where
  tables : ∀ l, u.tables.site = some l → (c.object.bind s.envAt).map Env.lineage = some l
  lineages : u.tables.Grows → c.object = none
  envs : ∀ i, u.envs.site = some i → c.object = some ⟨.env, i⟩
  evaluators : ∀ i, u.evaluators.site = some i → c.object = some ⟨.evaluator, i⟩
  makes : ∀ k, u.Makes k → c.makes = some k

variable {s t : Session} {c c' : Command} {u u' : Effect} {env : Env} {l l' : Nat}

/-! ### What stays as it is -/

/-- The function table of another lineage. -/
theorem table_apply (hu : u.On s c) (hlt : env.lineage < s.tables.size)
    (hne : (c.object.bind s.envAt).map Env.lineage ≠ some env.lineage) :
    (u.apply s).table env = s.table env := by
  have hget : s.tables[env.lineage]? = some s.tables[env.lineage] := Array.getElem?_eq_getElem hlt
  have hsite : u.tables.site ≠ some env.lineage := fun h => hne (hu.tables _ h)
  simp only [table, Array.getD_eq_getD_getElem?]
  rw [hget, apply, Change.getElem?_apply hget hsite]

/-- Another environment. -/
theorem envs_apply {i : Nat} (hu : u.On s c) (hi : s.envs[i]? = some env)
    (ho : c.object ≠ some ⟨.env, i⟩) : (u.apply s).envs[i]? = some env :=
  Change.getElem?_apply hi fun h => ho (hu.envs i h)

/-- Another evaluator. -/
theorem evaluators_apply {i : Nat} {e : Evaluator} (hu : u.On s c)
    (hi : s.evaluators[i]? = some e) (ho : c.object ≠ some ⟨.evaluator, i⟩) :
    (u.apply s).evaluators[i]? = some e :=
  Change.getElem?_apply hi fun h => ho (hu.evaluators i h)

/-- The environment of what the command is not applied to. -/
theorem envAt_apply {o : Object} (hu : u.On s c) (hp : s.envAt o = some env)
    (ho : c.object ≠ some o) : (u.apply s).envAt o = some env := by
  obtain ⟨_ | _, i⟩ := o
  · exact envs_apply hu hp ho
  · obtain ⟨e, he, rfl⟩ := Option.map_eq_some_iff.1 hp
    rw [envAt, evaluators_apply hu he ho]
    rfl

/-! ### Two effects -/

section Two

variable (hu : u.On s c) (hu' : u'.On s c')
  (hl : (c.object.bind s.envAt).map Env.lineage = some l)
  (hl' : (c'.object.bind s.envAt).map Env.lineage = some l') (hne : l ≠ l')

include hl in
theorem On.not_grows_tables (hu : u.On s c) : ¬u.tables.Grows := fun h => by
  rw [hu.lineages h] at hl
  cases hl

include hl in
theorem On.envs_lt (hu : u.On s c) {i : Nat} (hi : u.envs.site = some i) : i < s.envs.size := by
  rw [hu.envs i hi] at hl
  obtain ⟨env, henv, -⟩ := Option.map_eq_some_iff.1 hl
  exact (Array.getElem?_eq_some_iff.1 henv).1

include hl in
theorem On.evaluators_lt (hu : u.On s c) {i : Nat} (hi : u.evaluators.site = some i) :
    i < s.evaluators.size := by
  rw [hu.evaluators i hi] at hl
  obtain ⟨env, henv, -⟩ := Option.map_eq_some_iff.1 hl
  obtain ⟨e, he, -⟩ := Option.map_eq_some_iff.1 henv
  exact (Array.getElem?_eq_some_iff.1 he).1

include hl hl' hne

theorem object_ne : c.object ≠ c'.object := fun h => by
  rw [h, hl'] at hl
  exact hne (Option.some.inj hl).symm

include hu hu'

theorem tables_comm (hlt : l < s.tables.size) (hlt' : l' < s.tables.size) :
    u'.tables.apply (u.tables.apply s.tables) = u.tables.apply (u'.tables.apply s.tables) := by
  have hsite : ∀ i, u.tables.site = some i → i = l := fun i hi =>
    Option.some.inj ((hu.tables i hi).symm.trans hl)
  have hsite' : ∀ i, u'.tables.site = some i → i = l' := fun i hi =>
    Option.some.inj ((hu'.tables i hi).symm.trans hl')
  refine Change.apply_comm (fun i hi => hsite i hi ▸ hlt) (fun i hi => hsite' i hi ▸ hlt')
    (fun i hi hi' => hne ?_) fun h => hu.not_grows_tables hl h.1
  rw [← hsite i hi, ← hsite' i hi']

theorem envs_comm (hm : ¬(u.Makes .env ∧ u'.Makes .env)) :
    u'.envs.apply (u.envs.apply s.envs) = u.envs.apply (u'.envs.apply s.envs) :=
  Change.apply_comm (fun _ hi => hu.envs_lt hl hi) (fun _ hi => hu'.envs_lt hl' hi)
    (fun i hi hi' => object_ne hl hl' hne ((hu.envs i hi).trans (hu'.envs i hi').symm)) hm

theorem evaluators_comm (hm : ¬(u.Makes .evaluator ∧ u'.Makes .evaluator)) :
    u'.evaluators.apply (u.evaluators.apply s.evaluators) =
      u.evaluators.apply (u'.evaluators.apply s.evaluators) :=
  Change.apply_comm (fun _ hi => hu.evaluators_lt hl hi) (fun _ hi => hu'.evaluators_lt hl' hi)
    (fun i hi hi' => object_ne hl hl' hne ((hu.evaluators i hi).trans (hu'.evaluators i hi').symm))
    hm

/-- Effects in two lineages, of which not both make an environment or both an evaluator, can be had
in either order. -/
theorem apply_comm (hlt : l < s.tables.size) (hlt' : l' < s.tables.size)
    (hm : ∀ k, ¬(u.Makes k ∧ u'.Makes k)) : u'.apply (u.apply s) = u.apply (u'.apply s) := by
  unfold apply
  rw [tables_comm hu hu' hl hl' hne hlt hlt', envs_comm hu hu' hl hl' hne (hm .env),
    evaluators_comm hu hu' hl hl' hne (hm .evaluator)]

end Two

end Effect

/-! ## Commands have effects -/

namespace Session

/-- Everything that a command on `o` sees is the same in `t`. -/
def SameAt (s t : Session) : Option Object → Prop
  | none => t.tables.size = s.tables.size
  | some ⟨.env, i⟩ => t.envs[i]? = s.envs[i]? ∧
    ∀ env, s.envs[i]? = some env → t.table env = s.table env
  | some ⟨.evaluator, i⟩ => t.evaluators[i]? = s.evaluators[i]? ∧
    ∀ e, s.evaluators[i]? = some e → t.table e.env = s.table e.env

theorem SameAt.refl (s : Session) : ∀ o, s.SameAt s o
  | none => rfl
  | some ⟨.env, _⟩ => ⟨rfl, fun _ _ => rfl⟩
  | some ⟨.evaluator, _⟩ => ⟨rfl, fun _ _ => rfl⟩

theorem SameAt.symm {s t : Session} : ∀ {o}, s.SameAt t o → t.SameAt s o
  | none, h => Eq.symm h
  | some ⟨.env, _⟩, h => ⟨h.1.symm, fun env henv => (h.2 env (h.1.symm.trans henv)).symm⟩
  | some ⟨.evaluator, _⟩, h => ⟨h.1.symm, fun e he => (h.2 e (h.1.symm.trans he)).symm⟩

end Session

namespace Effect

open Session

/-- The command has the effect, and the answer unless it makes something, in `s` and wherever it
sees the same. -/
structure Of (u : Effect) (a : Answer) (fuel : Nat) (c : Command) (s : Session) : Prop where
  on : u.On s c
  step : ∀ t, s.SameAt t c.object → t.step fuel c = some (u.apply t, u.answer a t)

theorem Of.eq {u : Effect} {a a' : Answer} {fuel : Nat} {c : Command} {s t : Session}
    (hu : u.Of a fuel c s) (hs : s.step fuel c = some (t, a')) :
    t = u.apply s ∧ a' = u.answer a s :=
  Prod.mk.inj (Option.some.inj (hs.symm.trans (hu.step s (.refl s _))))

/-- No effect. -/
def nothing : Effect := ⟨.keep, .keep, .keep⟩

/-- A copy of an environment. -/
def addEnv (env : Env) : Effect := ⟨.keep, .push env, .keep⟩

/-- An evaluator in a copy of an environment. -/
def addEvaluator (env : Env) : Effect := ⟨.keep, .keep, .push ⟨env, none, ""⟩⟩

/-- Another environment in the place of one. -/
def setEnv (i : Nat) (env : Env) : Effect := ⟨.keep, .set i env, .keep⟩

/-- Other functions in a lineage. -/
def setTable (l : Nat) (f : FunTable) : Effect := ⟨.set l f, .keep, .keep⟩

/-- What a run of an evaluator has reached, and the functions in its lineage. -/
def afterRun (i : Nat) (e : Evaluator) (r : State Buffer) : Effect :=
  ⟨.set e.env.lineage r.functions, .keep,
    .set i ⟨{ e.env with vars := r.vars }, r.result, e.output ++ r.sink.text⟩⟩

variable {s : Session} {fuel i : Nat} {c : Command}

theorem On.nothing : nothing.On s c where
  tables := nofun
  lineages := nofun
  envs := nofun
  evaluators := nofun
  makes
    | .env => nofun
    | .evaluator => nofun

theorem On.addEnv {env : Env} (hc : c.makes = some .env) : (addEnv env).On s c where
  tables := nofun
  lineages := nofun
  envs := nofun
  evaluators := nofun
  makes
    | .env => fun _ => hc
    | .evaluator => nofun

theorem On.addEvaluator {env : Env} (hc : c.makes = some .evaluator) :
    (addEvaluator env).On s c where
  tables := nofun
  lineages := nofun
  envs := nofun
  evaluators := nofun
  makes
    | .env => nofun
    | .evaluator => fun _ => hc

theorem On.setEnv {env : Env} (hc : c.object = some ⟨.env, i⟩) : (setEnv i env).On s c where
  tables := nofun
  lineages := nofun
  envs _ hj := hc.trans (by rw [Option.some.inj hj])
  evaluators := nofun
  makes
    | .env => nofun
    | .evaluator => nofun

theorem On.setTable {l : Nat} {f : FunTable}
    (hl : (c.object.bind s.envAt).map Env.lineage = some l) : (setTable l f).On s c where
  tables _ hj := hl.trans hj
  lineages := nofun
  envs := nofun
  evaluators := nofun
  makes
    | .env => nofun
    | .evaluator => nofun

theorem On.afterRun {e : Evaluator} {r : State Buffer} (hc : c.object = some ⟨.evaluator, i⟩)
    (he : s.evaluators[i]? = some e) : (afterRun i e r).On s c where
  tables _ hl := by
    rw [hc, Option.bind_some, envAt, he]
    exact hl
  lineages := nofun
  envs := nofun
  evaluators _ hj := hc.trans (by rw [Option.some.inj hj])
  makes
    | .env => nofun
    | .evaluator => nofun

/-- What a command does to an environment, if there is one of that number. -/
theorem exists_of_env {answer : Session → Env → Session × Answer}
    (hobj : c.object = some ⟨.env, i⟩)
    (hstep : ∀ t : Session, t.step fuel c = some (t.withEnv i (answer t)))
    (henv : ∀ env, s.envs[i]? = some env → ∃ u : Effect, ∃ a, u.On s c ∧
      ∀ t, t.table env = s.table env → answer t env = (u.apply t, u.answer a t)) :
    ∃ u : Effect, ∃ a, u.Of a fuel c s := by
  cases hi : s.envs[i]? with
  | none =>
    refine ⟨nothing, .unknown, .nothing, fun t ht => ?_⟩
    rw [hobj] at ht
    rw [hstep, withEnv, ht.1, hi]
    rfl
  | some env =>
    obtain ⟨u, a, hon, hu⟩ := henv env hi
    refine ⟨u, a, hon, fun t ht => ?_⟩
    rw [hobj] at ht
    rw [hstep, withEnv, ht.1, hi]
    exact congrArg some (hu t (ht.2 env hi))

/-- What a command does to an evaluator, if there is one of that number. -/
theorem exists_of_evaluator (hobj : c.object = some ⟨.evaluator, i⟩)
    (hnone : ∀ t : Session, t.evaluators[i]? = none → t.step fuel c = some (t, .unknown))
    (he : ∀ e, s.evaluators[i]? = some e → ∃ u : Effect, ∃ a, u.On s c ∧
      ∀ t : Session, t.evaluators[i]? = some e → t.table e.env = s.table e.env →
        t.step fuel c = some (u.apply t, u.answer a t)) :
    ∃ u : Effect, ∃ a, u.Of a fuel c s := by
  cases hi : s.evaluators[i]? with
  | none =>
    refine ⟨nothing, .unknown, .nothing, fun t ht => ?_⟩
    rw [hobj] at ht
    exact hnone t (ht.1.trans hi)
  | some e =>
    obtain ⟨u, a, hon, hu⟩ := he e hi
    refine ⟨u, a, hon, fun t ht => ?_⟩
    rw [hobj] at ht
    exact hu t (ht.1.trans hi) (ht.2 e hi)

/-- A run changes the evaluator and the functions of its lineage. -/
theorem exists_of_run {e : Evaluator} {b : Block} {r : Session × Answer} (program : Code)
    (he : s.evaluators[i]? = some e) (hs : s.runIn fuel i e b = some r) :
    ∃ u : Effect, ∃ a, u.On s (.run i program) ∧
      ∀ t : Session, t.table e.env = s.table e.env →
        t.runIn fuel i e b = some (u.apply t, u.answer a t) := by
  unfold runIn at hs ⊢
  split at hs
  case h_1 v x hr =>
    refine ⟨afterRun i e x, .ran v x.sink.text, .afterRun rfl he, fun t ht => ?_⟩
    rw [ht, hr]
    rfl
  case h_2 e' x hr =>
    refine ⟨afterRun i e x, .faulted e' x.sink.text, .afterRun rfl he, fun t ht => ?_⟩
    rw [ht, hr]
    rfl
  case h_3 => cases hs

/-- Every command that is answered has an effect. -/
theorem exists_effect {r : Session × Answer} (hs : s.step fuel c = some r) :
    ∃ u : Effect, ∃ a, u.Of a fuel c s := by
  match c with
  | .new =>
    refine ⟨⟨.push ∅, .push ⟨∅, s.tables.size⟩, .keep⟩, .done, ⟨nofun, fun _ => rfl, nofun, nofun,
      fun | .env => fun _ => rfl | .evaluator => nofun⟩, fun t ht => ?_⟩
    rw [← show t.tables.size = s.tables.size from ht]
    rfl
  | .evaluator none =>
    refine ⟨⟨.push ∅, .keep, .push ⟨⟨∅, s.tables.size⟩, none, ""⟩⟩, .done, ⟨nofun, fun _ => rfl,
      nofun, nofun, fun | .env => nofun | .evaluator => fun _ => rfl⟩, fun t ht => ?_⟩
    rw [← show t.tables.size = s.tables.size from ht]
    rfl
  | .clone i =>
    exact exists_of_env rfl (fun _ => rfl) fun env _ =>
      ⟨addEnv env, .done, .addEnv rfl, fun _ _ => rfl⟩
  | .activation i bindings =>
    exact exists_of_env rfl (fun _ => rfl) fun env _ =>
      ⟨addEnv _, .done, .addEnv rfl, fun _ _ => rfl⟩
  | .evaluator (some i) =>
    exact exists_of_env rfl (fun _ => rfl) fun env _ =>
      ⟨addEvaluator env, .done, .addEvaluator rfl, fun _ _ => rfl⟩
  | .declare i x v =>
    exact exists_of_env rfl (fun _ => rfl) fun env _ =>
      ⟨setEnv i _, .done, .setEnv rfl, fun _ _ => rfl⟩
  | .assign i x v =>
    refine exists_of_env rfl (fun _ => rfl) fun env _ => ?_
    by_cases hx : x ∈ env.vars
    · exact ⟨setEnv i _, .done, .setEnv rfl, fun _ _ => if_pos hx⟩
    · exact ⟨nothing, _, .nothing, fun _ _ => if_neg hx⟩
  | .isBound i x =>
    exact exists_of_env rfl (fun _ => rfl) fun env _ => ⟨nothing, _, .nothing, fun _ _ => rfl⟩
  | .lookup i x =>
    refine exists_of_env rfl (fun _ => rfl) fun env _ => ?_
    cases hx : env.vars[x]? with
    | some v => exact ⟨nothing, .value v, .nothing, fun _ _ => rfl⟩
    | none => exact ⟨nothing, .fault (.variableNotFound x), .nothing, fun _ _ => rfl⟩
  | .register i f params body =>
    refine exists_of_env rfl (fun _ => rfl) fun env henv => ?_
    have hl : (s.envs[i]?).map Env.lineage = some env.lineage := congrArg _ henv
    cases hb : body.block with
    | error e => exact ⟨nothing, .badProgram e, .nothing, fun _ _ => rfl⟩
    | ok b =>
      exact ⟨setTable env.lineage ((s.table env).insert f ⟨params, b⟩), .done, .setTable hl,
        fun _ ht => by rw [ht]; rfl⟩
  | .resolve i f =>
    exact exists_of_env rfl (fun _ => rfl) fun env _ =>
      ⟨nothing, .function (s.table env)[f]?, .nothing, fun _ ht => by rw [ht]; rfl⟩
  | .same i f f' =>
    exact exists_of_env rfl (fun _ => rfl) fun env _ =>
      ⟨nothing, .truth (decide ((s.table env)[f]? = (s.table env)[f']?)), .nothing,
        fun _ ht => by rw [ht]; rfl⟩
  | .run i program =>
    have hnone : ∀ t : Session, t.evaluators[i]? = none →
        t.step fuel (.run i program) = some (t, .unknown) := fun t ht => by simp [Session.step, ht]
    cases hb : program.block with
    | error e =>
      exact exists_of_evaluator rfl hnone fun x _ => ⟨nothing, .badProgram e, .nothing,
        fun t ht _ => by simp only [Session.step, ht, hb]; rfl⟩
    | ok b =>
      refine exists_of_evaluator rfl hnone fun x hx => ?_
      simp only [Session.step, hx, hb] at hs
      obtain ⟨u, a, hon, hu⟩ := exists_of_run program hx hs
      refine ⟨u, a, hon, fun t ht htable => ?_⟩
      simp only [Session.step, ht, hb]
      exact hu t htable
  | .result i =>
    exact exists_of_evaluator rfl (fun t ht => by simp [Session.step, ht]) fun x _ =>
      ⟨nothing, .result x.result, .nothing, fun t ht _ => by simp only [Session.step, ht]; rfl⟩
  | .output i =>
    exact exists_of_evaluator rfl (fun t ht => by simp [Session.step, ht]) fun x _ =>
      ⟨nothing, .output x.output, .nothing, fun t ht _ => by simp only [Session.step, ht]; rfl⟩
  | .envOf i =>
    exact exists_of_evaluator rfl (fun t ht => by simp [Session.step, ht]) fun x _ =>
      ⟨addEnv x.env, .done, .addEnv rfl, fun t ht _ => by simp only [Session.step, ht]; rfl⟩

/-- What a command sees is the same after an effect in another lineage. -/
theorem sameAt_apply {c' : Command} {u' : Effect} {l l' : Nat} (hu' : u'.On s c')
    (hl : (c.object.bind s.envAt).map Env.lineage = some l)
    (hl' : (c'.object.bind s.envAt).map Env.lineage = some l') (hne : l ≠ l')
    (hlt : l < s.tables.size) : s.SameAt (u'.apply s) c.object := by
  have hobj : c'.object ≠ c.object := (object_ne hl hl' hne).symm
  have htable : ∀ env : Env, env.lineage = l → (u'.apply s).table env = s.table env :=
    fun env henv => table_apply hu' (henv ▸ hlt) fun h => hne (by
      rw [hl', Option.some.injEq] at h
      rw [h, henv])
  cases hc : c.object with
  | none =>
    rw [hc] at hl
    cases hl
  | some o =>
    rw [hc] at hl hobj
    obtain ⟨_ | _, i⟩ := o
    · obtain ⟨env, henv, rfl⟩ := Option.map_eq_some_iff.1 hl
      replace henv : s.envs[i]? = some env := henv
      refine ⟨(envs_apply hu' henv hobj).trans henv.symm, fun env' henv' => ?_⟩
      obtain rfl : env = env' := Option.some.inj (henv.symm.trans henv')
      exact htable env rfl
    · obtain ⟨env, henv, rfl⟩ := Option.map_eq_some_iff.1 hl
      obtain ⟨e, he, rfl⟩ := Option.map_eq_some_iff.1 henv
      refine ⟨(evaluators_apply hu' he hobj).trans he.symm, fun e' he' => ?_⟩
      obtain rfl : e = e' := Option.some.inj (he.symm.trans he')
      exact htable e.env rfl

/-- The number of what is made, after an effect that makes nothing of the kind. -/
theorem answer_apply {u u' : Effect} (hm : ∀ k, ¬(u.Makes k ∧ u'.Makes k)) (a : Answer) :
    u'.answer a (u.apply s) = u'.answer a s := by
  unfold answer
  split
  case isTrue henv =>
    rw [apply, Change.size_apply fun h => hm .env ⟨h, henv⟩]
  case isFalse =>
    split
    case isTrue hev =>
      rw [apply, Change.size_apply fun h => hm .evaluator ⟨h, hev⟩]
    case isFalse => rfl

end Effect

/-! ## Two commands that make the same -/

namespace Session

/-- Adds an environment, or an evaluator in one. -/
def add (s : Session) (env : Env) : ObjectKind → Session × Answer
  | .env => s.addEnv env
  | .evaluator => s.addEvaluator env

/-- A command that makes something of something makes a copy. -/
theorem exists_copy {s : Session} {c : Command} {k : ObjectKind} {env : Env}
    (hc : c.makes = some k) (ho : c.object.bind s.envAt = some env) :
    ∃ env', ∀ (fuel : Nat) (t : Session), s.SameAt t c.object →
      t.step fuel c = some (t.add env' k) := by
  match c with
  | .clone i | .evaluator (some i) =>
    obtain rfl := Option.some.inj hc
    refine ⟨env, fun fuel t ht => ?_⟩
    have hi : t.envs[i]? = some env := ht.1.trans ho
    simp only [Session.step, withEnv, hi]
    rfl
  | .activation i bindings =>
    obtain rfl := Option.some.inj hc
    refine ⟨{ env with vars := env.vars.bindAll bindings }, fun fuel t ht => ?_⟩
    have hi : t.envs[i]? = some env := ht.1.trans ho
    simp only [Session.step, withEnv, hi]
    rfl
  | .envOf i =>
    obtain rfl := Option.some.inj hc
    obtain ⟨e, he, rfl⟩ := Option.map_eq_some_iff.1 ho
    refine ⟨e.env, fun fuel t ht => ?_⟩
    have hi : t.evaluators[i]? = some e := ht.1.trans he
    simp only [Session.step, hi]
    rfl

/-- The session with the last two environments, or evaluators, in the other order. -/
def exchange (s : Session) : ObjectKind → Session
  | .env => { s with envs := s.envs.swapIfInBounds (s.envs.size - 2) (s.envs.size - 1) }
  | .evaluator =>
    { s with
      evaluators :=
        s.evaluators.swapIfInBounds (s.evaluators.size - 2) (s.evaluators.size - 1) }

theorem swapIfInBounds_push_push {α : Type} (xs : Array α) (x y : α) :
    ((xs.push x).push y).swapIfInBounds (((xs.push x).push y).size - 2)
      (((xs.push x).push y).size - 1) = (xs.push y).push x := by
  refine Array.ext_getElem? fun j => ?_
  grind

/-- Two copies in the other order have the same numbers. -/
theorem exchange_add (s : Session) (env env' : Env) (k : ObjectKind) :
    (s.add env' k).1.add env k =
      (((s.add env k).1.add env' k).1.exchange k, ((s.add env k).1.add env' k).2) := by
  cases k with
  | env =>
    simp only [add, addEnv, exchange]
    rw [swapIfInBounds_push_push, Array.size_push, Array.size_push]
  | evaluator =>
    simp only [add, addEvaluator, exchange]
    rw [swapIfInBounds_push_push, Array.size_push, Array.size_push]

/-! ## Runs of commands -/

/-- Commands are answered one after the other; each may take the fuel that it needs. -/
inductive Runs : Session → List Command → List Answer → Session → Prop where
  | nil (s : Session) : Runs s [] [] s
  | cons (fuel : Nat) {s s' t : Session} {c : Command} {cs : List Command} {a : Answer}
    {as : List Answer} (hs : s.step fuel c = some (s', a)) (h : Runs s' cs as t) :
    Runs s (c :: cs) (a :: as) t

variable {s t : Session} {g : Genealogy} {log : List Registration} {c c' : Command} {l l' : Nat}

theorem Runs.cons_inv {as : List Answer} {cs : List Command} (h : s.Runs (c :: cs) as t) :
    ∃ fuel s' a as', as = a :: as' ∧ s.step fuel c = some (s', a) ∧ s'.Runs cs as' t := by
  cases h with
  | cons fuel hs h => exact ⟨fuel, _, _, _, rfl, hs, h⟩

/-- A command leaves the variables alone of what it is not applied to. -/
theorem step_vars {fuel : Nat} {a : Answer} (hs : s.step fuel c = some (t, a)) {o : Object}
    {env : Env} (ho : s.envAt o = some env) (hc : c.object ≠ some o) : t.envAt o = some env := by
  obtain ⟨u, a', hu⟩ := Effect.exists_effect hs
  obtain ⟨rfl, -⟩ := hu.eq hs
  exact Effect.envAt_apply hu.on ho hc

/-- So do commands one after the other. -/
theorem Runs.vars {cs : List Command} {as : List Answer} (h : s.Runs cs as t) {o : Object}
    {env : Env} (ho : s.envAt o = some env) (hcs : ∀ c ∈ cs, c.object ≠ some o) :
    t.envAt o = some env := by
  induction h with
  | nil => exact ho
  | cons fuel hs h ih =>
    have hc := step_vars hs ho (hcs _ List.mem_cons_self)
    exact ih hc fun c hc => hcs c (List.mem_cons_of_mem _ hc)

/-- A command leaves the functions alone of all lineages but that of what it is applied to. -/
theorem step_table {fuel : Nat} {a : Answer} (hs : s.step fuel c = some (t, a)) {env : Env}
    (hlt : env.lineage < s.tables.size)
    (hne : (c.object.bind s.envAt).map Env.lineage ≠ some env.lineage) :
    t.table env = s.table env := by
  obtain ⟨u, a', hu⟩ := Effect.exists_effect hs
  obtain ⟨rfl, -⟩ := hu.eq hs
  exact Effect.table_apply hu.on hlt hne

/-- Commands in two lineages that do not both make an environment or an evaluator are answered
alike in either order. -/
theorem step_comm {fuel fuel' : Nat} {a a' : Answer} {s' : Session}
    (hs : s.step fuel c = some (s', a)) (hs' : s'.step fuel' c' = some (t, a'))
    (hl : (c.object.bind s.envAt).map Env.lineage = some l)
    (hl' : (c'.object.bind s.envAt).map Env.lineage = some l') (hne : l ≠ l')
    (hlt : l < s.tables.size) (hlt' : l' < s.tables.size)
    (hm : ∀ k, c.makes = some k → c'.makes ≠ some k) :
    ∃ t', s.step fuel' c' = some (t', a') ∧ t'.step fuel c = some (t, a) := by
  obtain ⟨u, x, hu⟩ := Effect.exists_effect hs
  obtain ⟨rfl, rfl⟩ := hu.eq hs
  have hsame' : s.SameAt (u.apply s) c'.object := Effect.sameAt_apply hu.on hl' hl hne.symm hlt'
  obtain ⟨v, _, hv⟩ := Effect.exists_effect hs'
  obtain ⟨u', x', hu'⟩ := Effect.exists_effect (hv.step s hsame'.symm)
  obtain ⟨rfl, rfl⟩ :=
    Prod.mk.inj (Option.some.inj (hs'.symm.trans (hu'.step (u.apply s) hsame')))
  have hboth : ∀ k, ¬(u.Makes k ∧ u'.Makes k) := fun k h =>
    hm k (hu.on.makes k h.1) (hu'.on.makes k h.2)
  refine ⟨u'.apply s, ?_, ?_⟩
  · rw [Effect.answer_apply hboth]
    exact hu'.step s (.refl s _)
  · rw [hu.step _ (Effect.sameAt_apply hu'.on hl hl' hne hlt),
      Effect.apply_comm hu.on hu'.on hl hl' hne hlt hlt' hboth,
      Effect.answer_apply fun k h => hboth k h.symm]

/-- Commands in two lineages that both make an environment, or an evaluator: what they make has the
numbers of the other order. -/
theorem step_exchange {fuel fuel' : Nat} {a a' : Answer} {s' : Session} {k : ObjectKind}
    (hs : s.step fuel c = some (s', a)) (hs' : s'.step fuel' c' = some (t, a'))
    (hl : (c.object.bind s.envAt).map Env.lineage = some l)
    (hl' : (c'.object.bind s.envAt).map Env.lineage = some l') (hne : l ≠ l')
    (hlt : l < s.tables.size) (hlt' : l' < s.tables.size)
    (hk : c.makes = some k) (hk' : c'.makes = some k) :
    ∃ t', s.step fuel' c' = some (t', a) ∧ t'.step fuel c = some (t.exchange k, a') := by
  obtain ⟨env, henv, -⟩ := Option.map_eq_some_iff.1 hl
  obtain ⟨env', henv', -⟩ := Option.map_eq_some_iff.1 hl'
  obtain ⟨x, hx⟩ := exists_copy hk henv
  obtain ⟨x', hx'⟩ := exists_copy hk' henv'
  have hc := hx fuel s (.refl s _)
  have hc' := hx' fuel' s (.refl s _)
  obtain ⟨u, _, hu⟩ := Effect.exists_effect hc
  obtain ⟨u', _, hu'⟩ := Effect.exists_effect hc'
  have hsame : s.SameAt (s.add x' k).1 c.object :=
    (hu'.eq hc').1 ▸ Effect.sameAt_apply hu'.on hl hl' hne hlt
  have hsame' : s.SameAt (s.add x k).1 c'.object :=
    (hu.eq hc).1 ▸ Effect.sameAt_apply hu.on hl' hl hne.symm hlt'
  rw [hc] at hs
  obtain rfl := congrArg Prod.fst (Option.some.inj hs)
  obtain rfl := congrArg Prod.snd (Option.some.inj hs)
  rw [hx' fuel' _ hsame'] at hs'
  refine ⟨(s.add x' k).1, ?_, ?_⟩
  · rw [hc']
    cases k <;> rfl
  · rw [hx fuel _ hsame, exchange_add, Option.some.inj hs']

end Session

/-! ## Isolation -/

open Session

theorem Accounts.lt {s : Session} {g : Genealogy} {log : List Registration}
    (h : Accounts s g log) {o : Session.Object} {env : Env} (ho : s.envAt o = some env) :
    env.lineage < s.tables.size := by
  obtain ⟨_ | _, i⟩ := o
  · exact h.env_lt env (Array.mem_of_getElem? ho)
  · obtain ⟨e, he, rfl⟩ := Option.map_eq_some_iff.1 ho
    exact h.evaluator_lt e (Array.mem_of_getElem? he)

theorem Accounts.bind_lineage {s : Session} {g : Genealogy} {log : List Registration}
    (h : Accounts s g log) (o : Option Session.Object) :
    o.bind g.lineage = (o.bind s.envAt).map Env.lineage := by
  cases o with
  | none => rfl
  | some o => exact h.lineage o

theorem ask_isBound {s : Session} {o : Object} {env : Env} (ho : s.envAt o = some env) (n : Nat)
    (x : String) : s.ask n (.isBound · x) o = some [.truth (decide (x ∈ env.vars))] :=
  ask_eq (fun _ env => .truth (decide (x ∈ env.vars))) ho fun _ _ => rfl

/-- The answer to the look-up of a variable. -/
def Vars.answer (vars : Vars) (x : String) : Answer :=
  match vars[x]? with
  | some v => .value v
  | none => .fault (.variableNotFound x)

theorem ask_lookup {s : Session} {o : Object} {env : Env} (ho : s.envAt o = some env) (n : Nat)
    (x : String) : s.ask n (.lookup · x) o = some [env.vars.answer x] := by
  refine ask_eq (fun _ env => env.vars.answer x) ho fun t i => ?_
  refine congrArg some (congrArg (t.withEnv i) (funext fun env => ?_))
  unfold Vars.answer
  cases env.vars[x]? <;> rfl

theorem ask_resolve {s : Session} {o : Object} {env : Env} (ho : s.envAt o = some env) (n : Nat)
    (f : String) : s.ask n (.resolve · f) o = some [.function (s.table env)[f]?] :=
  ask_eq (fun table _ => .function table[f]?) ho fun _ _ => rfl

/-- **Isolation**: commands one after the other, after any commands, leave every environment and
evaluator that they are not applied to with the same variables, and each of them leaves alone the
functions of all other lineages. Two commands in different lineages can be exchanged: answers and
final state are the same, up to the order of what is made if both make an environment or both an
evaluator. -/
theorem environments_isolated {s : Session} {g : Genealogy} {log : List Registration}
    (h : History s g log) :
    (∀ cs as t, s.Runs cs as t → ∀ o, s.envAt o ≠ none → (∀ c ∈ cs, c.object ≠ some o) →
      ∀ n x, t.ask n (.isBound · x) o = s.ask n (.isBound · x) o ∧
        t.ask n (.lookup · x) o = s.ask n (.lookup · x) o) ∧
    (∀ fuel c t a, s.step fuel c = some (t, a) → ∀ o, s.envAt o ≠ none →
      c.object.bind g.lineage ≠ g.lineage o →
      ∀ n f, t.ask n (.resolve · f) o = s.ask n (.resolve · f) o) ∧
    ∀ c c' l l', c.object.bind g.lineage = some l → c'.object.bind g.lineage = some l' → l ≠ l' →
      ((∀ k, c.makes = some k → c'.makes ≠ some k) → ∀ cs as t, s.Runs (c :: c' :: cs) as t →
        ∃ a a' as', as = a :: a' :: as' ∧ s.Runs (c' :: c :: cs) (a' :: a :: as') t) ∧
      ∀ k, c.makes = some k → c'.makes = some k → ∀ as t, s.Runs [c, c'] as t →
        s.Runs [c', c] as (t.exchange k) := by
  have ha := h.accounts
  refine ⟨?vars, ?functions, ?swap⟩
  case vars =>
    intro cs as t ht o ho hcs n x
    obtain ⟨env, henv⟩ := Option.ne_none_iff_exists'.1 ho
    have ht' : t.envAt o = some env := ht.vars henv hcs
    rw [ask_isBound henv, ask_isBound ht', ask_lookup henv, ask_lookup ht']
    exact ⟨rfl, rfl⟩
  case functions =>
    intro fuel c t a hs o ho hne n f
    obtain ⟨env, henv⟩ := Option.ne_none_iff_exists'.1 ho
    rw [ha.bind_lineage, ha.lineage, henv, Option.map_some] at hne
    have hobj : c.object ≠ some o := fun hc => hne (by rw [hc, Option.bind_some, henv]; rfl)
    rw [ask_resolve henv, ask_resolve (step_vars hs henv hobj), step_table hs (ha.lt henv) hne]
  case swap =>
    intro c c' l l' hl hl' hne
    rw [ha.bind_lineage] at hl hl'
    have hlt : l < s.tables.size := by
      obtain ⟨env, henv, rfl⟩ := Option.map_eq_some_iff.1 hl
      obtain ⟨o, -, ho⟩ := Option.bind_eq_some_iff.1 henv
      exact ha.lt ho
    have hlt' : l' < s.tables.size := by
      obtain ⟨env, henv, rfl⟩ := Option.map_eq_some_iff.1 hl'
      obtain ⟨o, -, ho⟩ := Option.bind_eq_some_iff.1 henv
      exact ha.lt ho
    constructor
    · intro hm cs as t ht
      obtain ⟨fuel, s₁, a, as₁, rfl, hs₁, h₁⟩ := ht.cons_inv
      obtain ⟨fuel', s₂, a', as₂, rfl, hs₂, h₂⟩ := h₁.cons_inv
      obtain ⟨t', ht₁, ht₂⟩ := step_comm hs₁ hs₂ hl hl' hne hlt hlt' hm
      exact ⟨a, a', as₂, rfl, .cons fuel' ht₁ (.cons fuel ht₂ h₂)⟩
    · intro k hk hk' as t ht
      obtain ⟨fuel, s₁, a, as₁, rfl, hs₁, h₁⟩ := ht.cons_inv
      obtain ⟨fuel', s₂, a', as₂, rfl, hs₂, h₂⟩ := h₁.cons_inv
      cases h₂
      obtain ⟨t', ht₁, ht₂⟩ := step_exchange hs₁ hs₂ hl hl' hne hlt hlt' hk hk'
      exact .cons fuel' ht₁ (.cons fuel ht₂ (.nil _))

/-- A run that faults in a call leaves alone the environment that its own was copied from, and
another lineage, with which it can be exchanged. -/
theorem environments_isolated_fault :
    let fault : Expr := .bin .div (.lit 1) (.lit 0)
    let b : Block := [.assign "x" (.lit 2), .function "f" [] [.expr fault], .expr (.call "f" [])]
    let run : Command := .run 0 (.tree b)
    ∃ s g log t, History s g log ∧ s.step 20 run = some (t, .faulted .divisionByZero "") ∧
      t.ask 1 (.lookup · "x") ⟨.env, 0⟩ = s.ask 1 (.lookup · "x") ⟨.env, 0⟩ ∧
      t.ask 1 (.resolve · "f") ⟨.env, 1⟩ = s.ask 1 (.resolve · "f") ⟨.env, 1⟩ ∧
      ∃ t', s.Runs [run, .declare 1 "x" 3, .lookup 1 "x"]
          [.faulted .divisionByZero "", .done, .value 3] t' ∧
        s.Runs [.declare 1 "x" 3, run, .lookup 1 "x"]
          [.done, .faulted .divisionByZero "", .value 3] t' := by
  intro fault b run
  have h : History _ _ _ :=
    .step 20 (.evaluator (some 0))
      (.step 20 (.declare 0 "x" 1) (.step 20 .new .initial rfl) rfl) rfl
  obtain ⟨hvars, hfunctions, hswap⟩ := environments_isolated h
  refine ⟨_, _, _, _, h, rfl, ?vars, ?functions, _,
    .cons 20 rfl (.cons 1 rfl (.cons 1 rfl (.nil _))), ?swapped⟩
  case vars =>
    have hne : ∀ c ∈ [run], c.object ≠ some ⟨.env, 0⟩ := by simp [run, Command.object]
    exact (hvars [run] _ _ (.cons 20 rfl (.nil _)) ⟨.env, 0⟩ nofun hne 1 "x").2
  case functions => exact hfunctions 20 run _ _ rfl ⟨.env, 1⟩ nofun (by decide) 1 "f"
  case swapped =>
    obtain ⟨_, _, _, has, ht⟩ := (hswap run (.declare 1 "x" 3) 0 1 rfl rfl (by decide)).1 nofun
      [.lookup 1 "x"] [.faulted .divisionByZero "", .done, .value 3] _
      (.cons 20 rfl (.cons 1 rfl (.cons 1 rfl (.nil _))))
    cases has
    exact ht

end IntScript
