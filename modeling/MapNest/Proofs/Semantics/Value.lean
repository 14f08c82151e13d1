import Mathlib.Data.List.Nodup
import MapNest.Nest.Level

/-!
# `MapNest.Proofs.Semantics.Value`: values, and what a level does to them

A value is a constant or an array of values, and an environment gives a value to every name. A name
that nothing has bound has some value too; a statement that holds of every environment does not
depend on it.

Entering a level binds its index to the number of an iteration, and each of its parameters to the
row of that number (`Level.enter`). `Level.enterAll` enters the levels of a nest, the outermost one
first.
-/

set_option autoImplicit false

namespace MapNest

/-- What a name stands for while a program runs. -/
inductive Value where
  /-- A single value. -/
  | scalar (c : Const)
  /-- An array, by its rows. -/
  | array (rows : List Value)

namespace Value

instance : Inhabited Value := ⟨.array []⟩

/-- The rows of an array. A single value has none. -/
def rows : Value → List Value
  | scalar _ => []
  | array rows => rows

/-- One row of an array. -/
def row (v : Value) (i : Nat) : Value := v.rows.getD i default

/-- The number of an iteration. -/
def ofIndex (i : Nat) : Value := .scalar (.i32 (Int32.ofNat i))

/-- An array has the rows that it is made of. -/
@[simp] theorem rows_array {l : List Value} : (array l).rows = l := rfl

end Value

/-- A value for every name. -/
abbrev Env := Name → Value

namespace Env

variable {ρ σ : Env} {n m : Name} {v : Value}

/-- Gives one name a value. -/
def bind (ρ : Env) (n : Name) (v : Value) : Env := fun m => if m = n then v else ρ m

/-- Gives each name of a list the value at its place in another, from left to right. -/
def bindAll (ρ : Env) : List Name → List Value → Env
  | [], _ => ρ
  | n :: ns, vs => bindAll (ρ.bind n (vs.headD default)) ns vs.tail

/-- A name has the value bound to it last. -/
@[simp] theorem bind_self : ρ.bind n v n = v := if_pos rfl

/-- Binding a name leaves the others. -/
theorem bind_of_ne (h : m ≠ n) : ρ.bind n v m = ρ m := if_neg h

/-- Nothing is bound to no names. -/
@[simp] theorem bindAll_nil {vs : List Value} : ρ.bindAll [] vs = ρ := rfl

/-- Names are bound one after the other, so for a name that is there twice the later value counts.
-/
@[simp] theorem bindAll_cons {ns : List Name} {vs : List Value} :
    ρ.bindAll (n :: ns) (v :: vs) = (ρ.bind n v).bindAll ns vs := rfl

/-- Names that are not bound keep their values. -/
theorem bindAll_of_not_mem {ns : List Name} {vs : List Value} (h : n ∉ ns) :
    ρ.bindAll ns vs n = ρ n := by
  induction ns generalizing ρ vs with
  | nil => rfl
  | cons m ns ih =>
    rw [List.mem_cons, not_or] at h
    rw [bindAll, ih h.2]
    exact bind_of_ne h.1

/-- Distinct names have the values they were given. -/
theorem bindAll_map {α : Type} {l : List α} {f : α → Name} {g : α → Value} {a : α}
    (hnodup : (l.map f).Nodup) (ha : a ∈ l) :
    ρ.bindAll (l.map f) (l.map g) (f a) = g a := by
  induction l generalizing ρ with
  | nil => cases ha
  | cons b l ih =>
    rw [List.map_cons, List.nodup_cons] at hnodup
    rw [List.map_cons, List.map_cons, bindAll_cons]
    rcases List.mem_cons.1 ha with rfl | ha
    · rw [bindAll_of_not_mem hnodup.1, bind_self]
    · exact ih hnodup.2 ha

/-- Distinct names have the values they were given. -/
theorem map_bindAll {ns : List Name} {vs : List Value} (hnodup : ns.Nodup)
    (hlen : ns.length = vs.length) : ns.map (ρ.bindAll ns vs) = vs := by
  induction ns generalizing ρ vs with
  | nil => exact (List.length_eq_zero_iff.1 hlen.symm).symm
  | cons n ns ih =>
    obtain ⟨hn, hns⟩ := List.nodup_cons.1 hnodup
    cases vs with
    | nil => simp at hlen
    | cons v vs =>
      rw [List.map_cons, bindAll_cons, bindAll_of_not_mem hn, bind_self,
        ih hns (by simpa using hlen)]

/-- Names may be bound in two batches, if the first has a value for each of its names. -/
theorem bindAll_append {ns ms : List Name} {vs us : List Value} (hlen : ns.length = vs.length) :
    ρ.bindAll (ns ++ ms) (vs ++ us) = (ρ.bindAll ns vs).bindAll ms us := by
  induction ns generalizing ρ vs with
  | nil =>
    rw [List.length_eq_zero_iff.1 hlen.symm]
    rfl
  | cons n ns ih =>
    cases vs with
    | nil => simp at hlen
    | cons v vs => exact ih (by simpa using hlen)

/-- What was the same before is the same after, and what is bound is the same in any case. -/
theorem bindAll_congr {ns : List Name} {vs : List Value} (h : n ∉ ns → ρ n = σ n) :
    ρ.bindAll ns vs n = σ.bindAll ns vs n := by
  -- Whether or not the first name is the one asked for, both sides give it the same value.
  induction ns generalizing ρ σ vs with
  | nil => exact h List.not_mem_nil
  | cons m ns ih =>
    rw [bindAll, bindAll]
    refine ih fun hns => ?_
    by_cases hm : n = m
    · rw [hm, bind_self, bind_self]
    · rw [bind_of_ne hm, bind_of_ne hm]
      exact h (by simp [hm, hns])

/-- Only as many values count as there are names. -/
theorem bindAll_range {ns : List Name} {vs : List Value} :
    ρ.bindAll ns ((List.range ns.length).map fun c => vs.getD c default) = ρ.bindAll ns vs := by
  -- Without the first name the values are those of the tail.
  induction ns generalizing ρ vs with
  | nil => rfl
  | cons n ns ih =>
    rw [List.length_cons, List.range_succ_eq_map, List.map_cons, List.map_map, bindAll_cons]
    have hvs : (fun c => vs.getD c default) ∘ Nat.succ = fun c => vs.tail.getD c default := by
      funext c
      simp [List.getD_eq_getElem?_getD]
    rw [hvs, ih, bindAll]
    congr 2
    cases vs <;> rfl

end Env

namespace Level

variable {l : Level} {i : Nat} {ρ : Env} {n : Name}

/-- What holds inside an iteration of a level, given what holds outside. -/
def enter (l : Level) (i : Nat) (ρ : Env) : Env :=
  (ρ.bind l.index (.ofIndex i)).bindAll (l.inputs.map (·.param.name))
    (l.inputs.map fun r => (ρ r.array).row i)

/-- What holds at a point of a nest: one iteration of each level, the outermost first. -/
def enterAll : List Level → List Nat → Env → Env
  | l :: levels, i :: point, ρ => enterAll levels point (l.enter i ρ)
  | _, _, ρ => ρ

/-- Entering a level changes nothing about names that it does not bind. -/
theorem enter_of_not_mem_bound (h : n ∉ l.bound) : l.enter i ρ n = ρ n := by
  rw [Level.mem_bound, not_or] at h
  rw [enter, Env.bindAll_of_not_mem, Env.bind_of_ne h.1]
  intro hn
  obtain ⟨r, hr, hname⟩ := List.mem_map.1 hn
  exact h.2 ⟨r, hr, hname⟩

/-- Inside a level the index is the number of the iteration. The parameters are bound after it. -/
theorem enter_index (h : l.index ∉ Pattern.names l.params) : l.enter i ρ l.index = .ofIndex i := by
  rw [enter, Env.bindAll_of_not_mem, Env.bind_self]
  rwa [Pattern.names, params, List.map_map] at h

/-- Inside a level a parameter is the row of its array. -/
theorem enter_param {r : RowInput} (hnodup : (Pattern.names l.params).Nodup) (hr : r ∈ l.inputs) :
    l.enter i ρ r.param.name = (ρ r.array).row i := by
  rw [Pattern.names, params, List.map_map] at hnodup
  exact Env.bindAll_map (f := fun r : RowInput => r.param.name) hnodup hr

/-- Without a point no level is entered. -/
@[simp] theorem enterAll_nil {levels : List Level} : enterAll levels [] ρ = ρ := by
  cases levels <;> rfl

/-- Entering levels changes nothing about names that none of them binds. -/
theorem enterAll_of_not_mem_bound {levels : List Level} {point : List Nat}
    (h : ∀ l ∈ levels, n ∉ l.bound) : enterAll levels point ρ n = ρ n := by
  induction levels generalizing point ρ with
  | nil => rfl
  | cons l levels ih =>
    cases point with
    | nil => rfl
    | cons i point =>
      rw [enterAll, ih (fun l' hl' => h l' (List.mem_cons_of_mem _ hl'))]
      exact enter_of_not_mem_bound (h l (List.mem_cons_self ..))

end Level

end MapNest
