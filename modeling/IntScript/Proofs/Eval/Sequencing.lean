import IntScript.Proofs.Eval.Endings

/-!
# Programs in pieces

* `Run.block_append` : two blocks one after the other are executed as one;
* `runPieces` : blocks that are run one after the other, as long as none of them faults;
* `Run.program_append`, `Run.pieces_flatten` : they end as one block does, however it is cut;
* `runBlock_append` : a block that is run in two or more pieces.
-/

namespace IntScript

variable {σ α : Type} [Sink σ]

/-- Runs blocks one after the other, and gives the terminal value after the last one. -/
def runPieces (fuel : Nat) : List Block → Exec σ (Option Int64)
  | [] => fun s => .done s.result s
  | p :: ps => do
    let _ ← runBlock fuel p
    runPieces fuel ps

namespace Run

/-- The terminal value. -/
def result : Run σ (Option Int64) := lift fun s => .done s.result s

/-- A run of blocks, one after the other. -/
def pieces : List Block → Run σ (Option Int64)
  | [] => result
  | p :: ps => do
    let _ ← program p
    pieces ps

theorem withFuel_pieces (ps : List Block) :
    (pieces ps : Run σ (Option Int64)).withFuel = fun n => runPieces n ps := by
  induction ps with
  | nil => rfl
  | cons p ps ih =>
    funext n
    change (runBlock n p >>= fun _ => (pieces ps).withFuel n) =
      runBlock n p >>= fun _ => runPieces n ps
    rw [ih]

/-- The run of a block executes it and then gives the terminal value. -/
theorem program_eq (b : Block) :
    (program b : Run σ (Option Int64)) = block b >>= fun _ => result := rfl

omit [Sink σ] in
/-- To look at the terminal value changes nothing. -/
theorem result_bind (x : Run σ α) : (result >>= fun _ => x) = x := rfl

/-- Two blocks in one are executed one after the other. If the terminal value is set in the first
one, the second one does nothing, and in the one block nothing of it is executed. -/
theorem block_append (p q : Block) (s : State σ) :
    Same s (block (p ++ q)) (block p >>= fun _ => block q) := by
  induction p generalizing s with
  | nil =>
    calc
      block q = pure () >>= fun _ => block q := (pure_bind () fun _ => block q).symm
      Same s _ (block [] >>= fun _ => block q) := (block_nil s).symm.bindLeft _
  | cons st p ih =>
    by_cases hs : s.result = none
    · calc
        Same s (block (st :: (p ++ q))) (stmt st >>= fun _ => block (p ++ q)) :=
          block_cons hs st (p ++ q)
        Same s _ (stmt st >>= fun _ => block p >>= fun _ => block q) := .bindRight fun _ t => ih t
        _ = (stmt st >>= fun _ => block p) >>= fun _ => block q := (bind_assoc _ _ _).symm
        Same s _ (block (st :: p) >>= fun _ => block q) := (block_cons hs st p).symm.bindLeft _
    · calc
        Same s (block (st :: p ++ q)) (pure ()) := block_of_result hs _
        Same s _ (block q) := (block_of_result hs q).symm
        _ = pure () >>= fun _ => block q := (pure_bind () fun _ => block q).symm
        Same s _ (block (st :: p) >>= fun _ => block q) := (block_of_result hs _).symm.bindLeft _

/-- The run of two blocks in one is the run of the first one and then that of the second one. -/
theorem program_append (p q : Block) (s : State σ) :
    Same s (program (p ++ q)) (program p >>= fun _ => program q) :=
  calc
    program (p ++ q) = block (p ++ q) >>= fun _ => result := program_eq _
    Same s _ ((block p >>= fun _ => block q) >>= fun _ => result) :=
      (block_append p q s).bindLeft _
    _ = block p >>= fun _ => program q := bind_assoc _ _ _
    _ = (block p >>= fun _ => result) >>= fun _ => program q := by
      simp only [bind_assoc, result_bind]

/-- However a program is cut into pieces, they run as it does. -/
theorem pieces_flatten (ps : List Block) (s : State σ) :
    Same s (pieces ps) (program ps.flatten) := by
  induction ps generalizing s with
  | nil =>
    calc
      pieces [] = pure () >>= fun _ => result := (pure_bind () fun _ => result).symm
      Same s _ (block [] >>= fun _ => result) := (block_nil s).symm.bindLeft _
  | cons p ps ih =>
    calc
      Same s (program p >>= fun _ => pieces ps) (program p >>= fun _ => program ps.flatten) :=
        .bindRight fun _ t => ih t
      Same s _ (program (p ++ ps.flatten)) := (program_append p ps.flatten s).symm

end Run

/-- **A program in pieces** runs as it does at once, from any state `s` of an evaluator, whether
there is a terminal value or not.

* If the run of a block `p` faults, then `p` followed by `q` faults in the same way, with the same
  state and what it has printed.
* If the run of `p` comes to its end in the state `t`, then `p` followed by `q` ends with whatever
  the run of `q` from `t` ends with, and only with that.
* However a program is cut into pieces, running these one after the other until one of them faults
  ends with what the program ends with. -/
theorem runBlock_append (p q : Block) (s : State σ) :
    (∀ e t, EndsWith (runBlock · p) s (.fault e t) →
      EndsWith (runBlock · (p ++ q)) s (.fault e t)) ∧
    (∀ v t, EndsWith (runBlock · p) s (.done v t) →
      ∀ o, EndsWith (runBlock · (p ++ q)) s o ↔ EndsWith (runBlock · q) t o) ∧
    ∀ ps o, EndsWith (runPieces · ps) s o ↔ EndsWith (runBlock · ps.flatten) s o := by
  have happend := Run.program_append p q s
  refine ⟨fun e t h => ?_, fun v t h o => ?_, fun ps o => ?_⟩
  · exact (happend _).2 ((Run.endsWith_bind_iff _ _ s _).2 (.inr ⟨e, t, h, rfl⟩))
  · exact (happend o).trans (Run.endsWith_bind_of_done h o)
  · have h := Run.pieces_flatten ps s o
    rwa [Run.withFuel_pieces] at h

/-- The second block uses the function and the variable of the first one, prints and faults. -/
theorem runBlock_append_shared :
    let p : Block := [.function "f" ["n"] [.ret (.bin .mul (.ident "n") (.lit 2))],
      .var "x" (some (.call "f" [.lit 4]))]
    let q : Block := [.expr (.call printName [.ident "x"]), .ret (.bin .div (.ident "x") (.lit 0))]
    let s : State Buffer := .fresh .empty
    ∃ t u, EndsWith (runBlock · p) s (.done none t) ∧
      EndsWith (runBlock · q) t (.fault .divisionByZero u) ∧
      EndsWith (runBlock · (p ++ q)) s (.fault .divisionByZero u) ∧ u.sink.text = "8\n" := by
  intro p q s
  have hp : ∃ t, EndsWith (runBlock · p) s (.done none t) ∧
      ∃ u, EndsWith (runBlock · q) t (.fault .divisionByZero u) ∧ u.sink.text = "8\n" :=
    ⟨_, ⟨Outcome.ended_done _ _, 20, rfl⟩, _, ⟨Outcome.ended_fault _ _, 20, rfl⟩, rfl⟩
  obtain ⟨t, ht, u, hu, htext⟩ := hp
  exact ⟨t, u, ht, hu, ((runBlock_append p q s).2.1 none t ht _).2 hu, htext⟩

end IntScript
