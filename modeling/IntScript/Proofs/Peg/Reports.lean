import IntScript.Proofs.Peg.Attempts

/-!
# What is reported

The record of failures lists rules that were called where it says.

* `Recorded S f` : the place of the record is one of rules in `S`, and such are those that it lists
  (`Recorded.report`);
* `Grammar.Keeps S x c` : every rule that a match of `x` at `c` calls is called where it is in `S`;
* `Tries.recorded` : if the rules in `S` call only such rules, an attempt reports only such.
-/

namespace IntScript

variable {R : Type}

/-! ## Records -/

/-- The place of the record is one where rules are in `S`. It lists only such rules, and none that
must not match. -/
structure Recorded (S : R → Cursor → Prop) (f : Furthest R) : Prop where
  place : ∃ r c, S r c ∧ c.offset = f.offset
  unexpected : f.unexpected = []
  expected : ∀ r ∈ f.expected, ∃ c, S r c ∧ c.offset = f.offset

namespace Recorded

variable {S : R → Cursor → Prop} {before after : Furthest R} {r : R} {c : Cursor}

/-- Nothing is listed. -/
theorem empty (hr : S r c) : Recorded S ⟨c.offset, [], []⟩ where
  place := ⟨r, c, hr, rfl⟩
  unexpected := rfl
  expected _ h := absurd h List.not_mem_nil

theorem since (h : Recorded S after) (offset : Nat) : Recorded S (before.since after offset) := by
  unfold Furthest.since
  split
  case isTrue =>
    refine ⟨h.place, ?_, fun r hr => h.expected r (List.mem_of_mem_take hr)⟩
    change after.unexpected.take _ = []
    rw [h.unexpected, List.take_nil]
  case isFalse => exact ⟨h.place, rfl, fun r hr => absurd hr List.not_mem_nil⟩

theorem add (h : Recorded S after) (hr : S r c) (hc : c.offset = after.offset) :
    Recorded S (after.add r false) := by
  refine ⟨h.place, h.unexpected, fun r' hr' => ?_⟩
  rcases List.mem_append.1 hr' with hr' | hr'
  · exact h.expected r' hr'
  · obtain rfl := List.mem_singleton.1 hr'
    exact ⟨c, hr, hc⟩

theorem report (h : Recorded S after) (hr : S r c) :
    Recorded S (before.report after c.offset r false) := by
  unfold Furthest.report
  split
  case isTrue => exact h
  case isFalse =>
    split
    case isTrue hc =>
      refine (h.since c.offset).add hr (hc.symm.trans ?_)
      unfold Furthest.since
      split <;> rfl
    case isFalse =>
      split
      case isTrue => exact (empty hr).add hr rfl
      case isFalse => exact h

end Recorded

namespace Grammar

variable {g : Grammar R} {S : R → Cursor → Prop} {a u : Bool} {x y : Peg R} {c : Cursor}
  {o : Option Cursor} {f t : Furthest R}

/-! ## Calls -/

/-- Every rule that a match of the expression calls, outside atomic rules, is called where it is in
`S`. A repetition goes on from places with a property of its own. -/
def Keeps (g : Grammar R) (S : R → Cursor → Prop) : Peg R → Cursor → Prop
  | .text _, _ | .char _, _ | .start, _ | .stop, _ => True
  | .rule r, c => S r c
  | .seq x y, c => Keeps g S x c ∧ ∀ d, g.Reaches false x c d → Keeps g S y (g.afterLayout false d)
  | .alt x y, c => Keeps g S x c ∧ Keeps g S y c
  | .opt x, c | .peek x, c => Keeps g S x c
  | .many x, c => ∃ I : Cursor → Prop, I c ∧ ∀ d, I d → Keeps g S x d ∧
      ∀ e, g.Reaches false x d e → I (g.afterLayout false e)
  | .deny x, _ => x.noRules = true

theorem keeps_of_noRules (h : x.noRules = true) : g.Keeps S x c := by
  induction x generalizing c with
  | text | char | start | stop => trivial
  | rule => cases h
  | seq x y ihx ihy =>
    obtain ⟨hx, hy⟩ := Bool.and_eq_true_iff.1 h
    exact ⟨ihx hx, fun _ _ => ihy hy⟩
  | alt x y ihx ihy =>
    obtain ⟨hx, hy⟩ := Bool.and_eq_true_iff.1 h
    exact ⟨ihx hx, ihy hy⟩
  | opt x ih | peek x ih => exact ih h
  | many x ih => exact ⟨fun _ => True, trivial, fun _ _ => ⟨ih h, fun _ _ => trivial⟩⟩
  | deny x => exact h

/-- If rules in `S` call only such rules, an attempt outside atomic rules, where rules are wanted,
reports only such. -/
theorem Tries.recorded (hS : ∀ r c, S r c → g.atomic r = false → g.Keeps S (g.body r) c)
    (h : g.Tries a u x c o t) (ha : a = false) (hu : u = false) (hx : g.Keeps S x c)
    (hf : Recorded S f) : Recorded S (f.join t) := by
  induction h generalizing f with
  | text | char | start | stop => rwa [Furthest.join_initial]
  | @rule a u r c o t t' h ht ih =>
    subst ha hu ht
    have hbody : Recorded S (f.join t) := by
      cases hr : g.atomic r with
      | true =>
        rw [h.eq_initial_of_atomic hr, Furthest.join_initial]
        exact hf
      | false => exact ih hr rfl (hS r c hx hr) hf
    rw [Furthest.ofRule, if_neg Bool.false_ne_true]
    -- only the failure of a rule is reported
    cases o with
    | some d => exact hbody
    | none =>
      rw [Option.isSome_none, if_pos rfl, ← Furthest.report_join h.le_offset.2]
      exact hbody.report hx
  | seqFail _ ih => exact ih ha hu hx.1 hf
  | seq hd _ ihx ihy =>
    subst ha
    rw [← Furthest.join_assoc]
    exact ihy rfl hu (hx.2 _ hd.reaches) (ihx rfl hu hx.1 hf)
  | altLeft _ ih => exact ih ha hu hx.1 hf
  | altRight _ _ ihx ihy =>
    rw [← Furthest.join_assoc]
    exact ihy ha hu hx.2 (ihx ha hu hx.1 hf)
  | opt _ _ ih | peek _ _ ih => exact ih ha hu hx hf
  | manyNil _ ih =>
    obtain ⟨I, hc, hI⟩ := hx
    exact ih ha hu (hI _ hc).1 hf
  | manyLast hd _ ih ihd =>
    subst ha
    obtain ⟨I, hc, hI⟩ := hx
    have hnext := (hI _ hc).2 _ hd.reaches
    rw [← Furthest.join_assoc]
    exact ihd rfl hu (hI _ hnext).1 (ih rfl hu (hI _ hc).1 hf)
  | manyMore hd _ _ ih _ ihm =>
    subst ha
    obtain ⟨I, hc, hI⟩ := hx
    have hnext := (hI _ hc).2 _ hd.reaches
    rw [← Furthest.join_assoc]
    exact ihm rfl hu ⟨I, hnext, hI⟩ (ih rfl hu (hI _ hc).1 hf)
  | deny h =>
    rw [h.eq_initial_of_noRules hx, Furthest.join_initial]
    exact hf

end Grammar

end IntScript
