import IntScript.Tree
import Std.Data.ExtTreeMap

/-!
# Variables and functions

* `Vars` : the variables that are bound, with their values;
* `Vars.bindAll` : binds names in order, so that the last binding of a name wins;
* `FunDef`, `FunTable` : functions and the names that they are registered under;
* `getElem?_insert_of_ne` : names are bound apart from each other.

Two maps with the same entries are equal, whatever led to them.
-/

namespace IntScript

/-- The bound variables and their values. -/
abbrev Vars := Std.ExtTreeMap String Int64

/-- Binds names in order. -/
def Vars.bindAll (vars : Vars) (bindings : List (String × Int64)) : Vars :=
  bindings.foldl (fun vars b => vars.insert b.1 b.2) vars

/-- A function: its parameters and its body. -/
structure FunDef where
  params : List String
  body : Block
deriving DecidableEq

/-- The registered functions. -/
abbrev FunTable := Std.ExtTreeMap String FunDef

/-- What is bound to one name does not change another one. -/
theorem getElem?_insert_of_ne {β : Type} {x y : String} (h : x ≠ y)
    (m : Std.ExtTreeMap String β) (v : β) : (m.insert x v)[y]? = m[y]? := by
  rw [Std.ExtTreeMap.getElem?_insert, if_neg (by simpa using h)]

@[simp] theorem Vars.bindAll_nil (vars : Vars) : vars.bindAll [] = vars := rfl

@[simp] theorem Vars.bindAll_cons (vars : Vars) (x : String) (v : Int64)
    (bindings : List (String × Int64)) :
    vars.bindAll ((x, v) :: bindings) = Vars.bindAll (vars.insert x v) bindings := rfl

/-- A name keeps its binding unless it is among those that are bound. -/
theorem Vars.getElem?_bindAll_of_not_mem {bindings : List (String × Int64)} {x : String}
    (h : x ∉ bindings.map Prod.fst) (vars : Vars) : (vars.bindAll bindings)[x]? = vars[x]? := by
  induction bindings generalizing vars with
  | nil => rfl
  | cons b bindings ih =>
    obtain ⟨y, v⟩ := b
    simp only [List.map_cons, List.mem_cons, not_or] at h
    rw [bindAll_cons, ih h.2, getElem?_insert_of_ne (Ne.symm h.1)]

end IntScript
