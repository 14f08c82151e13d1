import MapNest.Loop.Interchange
import MapNest.Proofs.Analysis.Free
import MapNest.Proofs.Attempt

/-!
# `MapNest.Proofs.Loop.Crosses`: how a loop leaves a nest

`LoopStm.interchange` moves a loop out of one level. `LoopStm.interchange_eq_ok` says what a
successful run comes to: each carried value is widened (`Level.Widens`), each array that the body
needs is handed to the map (`Level.HandsBy`), and the loop that stands outside is `LoopStm.outside`.
The names drawn on the way have growing tags. `LoopStm.Crosses` says the same without telling which
arrays are copied (`Level.Hands`).

`LoopStm.CrossesAll` is the derivation for the levels of a nest, the innermost crossed first. What
holds of every loop moved out of a nest is proved by induction on it.
-/

set_option autoImplicit false

namespace MapNest

/-! ### Carried values and handed arrays -/

/-- How a level gives a carried value a row for each of its iterations. -/
inductive Level.Widens (l : Level) (m : Merge) : Widened → Prop
  /-- The initial value is a parameter, and its array is the initial value outside. -/
  | reuse {array : Binder} {i : RowInput} (hinit : m.init.name?.bind l.input? = some i)
      (hty : array.ty = m.param.ty.arrayOf l.width) :
      Widens l m ⟨m, ⟨array, .var i.array⟩, []⟩
  /-- The initial value is replicated. -/
  | replicate {array start : Binder} (hinit : m.init.name?.bind l.input? = none)
      (hty : array.ty = m.param.ty.arrayOf l.width)
      (hstart : start.ty.dims = l.width :: m.param.ty.dims) :
      Widens l m ⟨m, ⟨array, .var start.name⟩, [Stm.replicate start l.width m.init]⟩

/-- The names drawn to widen a carried value. -/
def Widened.drawn (w : Widened) : List Name :=
  w.outside.param.name :: Stm.patternNames w.replicates

/-- The carried values outside are among the names drawn. -/
theorem Widened.sublist_outside {ws : List Widened} :
    (ws.map (·.outside.param.name)).Sublist (ws.flatMap drawn) := by
  induction ws with
  | nil => exact .slnil
  | cons w ws ih =>
    rw [List.map_cons, List.flatMap_cons, drawn, List.cons_append]
    exact (ih.trans (List.sublist_append_right _ _)).cons_cons _

/-- The replications are among the names drawn. -/
theorem Widened.sublist_replicates {ws : List Widened} :
    (Stm.patternNames (ws.flatMap (·.replicates))).Sublist (ws.flatMap drawn) := by
  induction ws with
  | nil => exact .slnil
  | cons w ws ih =>
    rw [List.flatMap_cons, List.flatMap_cons, Stm.patternNames, List.flatMap_append]
    exact (List.sublist_cons_self _ _).append ih

/-- How a level hands an array to the map. -/
inductive Level.Hands (l : Level) (i : RowInput) : Handed → Prop
  /-- The map reads the array itself. -/
  | same : Hands l i ⟨i, []⟩
  /-- The map reads a copy. -/
  | copy {c : Binder} (hty : c.ty.dims = l.width :: i.param.ty.dims) :
      Hands l i ⟨⟨i.param, c.name⟩, [Stm.copy c i.array]⟩

/-- How a level hands an array to the map when it is known whether copies are asked for: then the
arrays whose rows may be overwritten are copied, and no others. -/
inductive Level.HandsBy (l : Level) (copyConsumed : Bool) (i : RowInput) : Handed → Prop
  /-- The map reads the array itself. -/
  | same (hread : ¬(i.param.ty.isUnique ∧ copyConsumed)) : HandsBy l copyConsumed i ⟨i, []⟩
  /-- The map reads a copy. -/
  | copy {c : Binder} (hunique : i.param.ty.isUnique) (hcopies : copyConsumed)
      (hty : c.ty.dims = l.width :: i.param.ty.dims) :
      HandsBy l copyConsumed i ⟨⟨i.param, c.name⟩, [Stm.copy c i.array]⟩

/-- Forgetting why an array was copied or not. -/
theorem Level.HandsBy.hands {l : Level} {copyConsumed : Bool} {i : RowInput} {h : Handed}
    (hh : l.HandsBy copyConsumed i h) : l.Hands i h := by
  cases hh with
  | same => exact .same
  | copy _ _ hty => exact .copy hty

/-- Inside the level a carried value is what it was. -/
theorem Level.Widens.inside_eq {l : Level} {m : Merge} {w : Widened} (h : l.Widens m w) :
    w.inside = m := by
  cases h <;> rfl

/-- Copied or not, an array is read through the same parameter. -/
theorem Level.Hands.param_eq {l : Level} {i : RowInput} {h : Handed} (hh : l.Hands i h) :
    h.input.param = i.param := by
  cases hh <;> rfl

section Steps

variable {level : Level} {st st' : Attempt}

/-- What widening a carried value comes to, and the names that it draws. -/
theorem Level.widens_of_widen_eq_ok {m : Merge} {w : Widened}
    (h : level.widen m st = .ok w st') :
    level.Widens m w ∧ Drawn st.supply.next st'.supply.next w.drawn ∧
      st.supply.next ≤ st'.supply.next := by
  unfold widen at h
  obtain ⟨array, s₁, harray, hrest⟩ := bind_eq_ok_iff.1 h
  obtain ⟨-, rfl, rfl⟩ := AttemptM.freshBinder_eq_ok_iff.1 harray
  cases hinit : m.init.name?.bind level.input? with
  | some i =>
    rw [hinit] at hrest
    obtain ⟨rfl, rfl⟩ := pure_eq_ok_iff.1 hrest
    refine ⟨.reuse hinit rfl, Drawn.singleton (Nat.le_refl _) ?_, ?_⟩
    · exact Nat.lt_succ_self _
    · exact Nat.le_succ _
  | none =>
    rw [hinit] at hrest
    obtain ⟨start, s₂, hstart, hpure⟩ := bind_eq_ok_iff.1 hrest
    obtain ⟨-, rfl, rfl⟩ := AttemptM.freshBinder_eq_ok_iff.1 hstart
    obtain ⟨rfl, rfl⟩ := pure_eq_ok_iff.1 hpure
    -- The array is drawn first, and then its initial value.
    have harray : Drawn st.supply.next (st.supply.next + 1)
        [⟨m.param.name.base ++ "_expanded", st.supply.next⟩] :=
      Drawn.singleton (Nat.le_refl _) (Nat.lt_succ_self _)
    have hstart : Drawn (st.supply.next + 1) (st.supply.next + 2)
        [⟨m.param.name.base ++ "_expanded_init", st.supply.next + 1⟩] :=
      Drawn.singleton (Nat.le_refl _) (Nat.lt_succ_self _)
    refine ⟨.replicate hinit rfl (by simp), harray.append hstart ?_ ?_, ?_⟩
    · exact Nat.le_succ _
    · exact Nat.le_succ _
    · exact Nat.le_add_right _ 2

/-- What handing an array to the map comes to, and the names that it draws. -/
theorem Level.hands_of_hand_eq_ok {copyConsumed : Bool} {i : RowInput} {h : Handed}
    (hrun : level.hand copyConsumed i st = .ok h st') :
    level.HandsBy copyConsumed i h ∧
      Drawn st.supply.next st'.supply.next (Stm.patternNames h.copies) ∧
      st.supply.next ≤ st'.supply.next := by
  unfold hand at hrun
  split at hrun
  · rename_i hcopies
    obtain ⟨hunique, hcopies⟩ := Bool.and_eq_true_iff.1 hcopies
    obtain ⟨c, s₁, hc, hpure⟩ := bind_eq_ok_iff.1 hrun
    obtain ⟨-, rfl, rfl⟩ := AttemptM.freshBinder_eq_ok_iff.1 hc
    obtain ⟨rfl, rfl⟩ := pure_eq_ok_iff.1 hpure
    refine ⟨.copy hunique hcopies (by simp), Drawn.singleton (Nat.le_refl _) ?_, ?_⟩
    · exact Nat.lt_succ_self _
    · exact Nat.le_succ _
  · rename_i hread
    obtain ⟨rfl, rfl⟩ := pure_eq_ok_iff.1 hrun
    exact ⟨.same fun h => hread (Bool.and_eq_true_iff.2 h), Drawn.nil, Nat.le_refl _⟩

/-- A loop that a level accepts counts up to a bound that the level does not bind. -/
theorem Level.accept_eq_ok {form : LoopForm} {u : Unit} (h : level.accept form st = .ok u st') :
    ∃ index bound, form = .forBelow index bound ∧ (∀ n, bound = .var n → n ∉ level.bound) ∧
      st' = st := by
  cases form with
  | whileTrue cond => exact absurd h AttemptM.refuse_ne_ok
  | forBelow index bound =>
    -- The number of iterations must not depend on the iteration of the level.
    by_cases hvaries : ∃ n ∈ Operand.names [bound], n ∈ level.bound
    · rw [accept, if_pos hvaries] at h
      exact absurd h AttemptM.refuse_ne_ok
    · rw [accept, if_neg hvaries] at h
      refine ⟨index, bound, rfl, ?_, (pure_eq_ok_iff.1 h).2.symm⟩
      intro n hn hmem
      exact hvaries ⟨n, by simp [hn], hmem⟩

/-- The array of a returned value is that of the first carried value with its name. -/
theorem Widened.returned_eq_ok {ws : List Widened} {n n' : Name}
    (h : Widened.returned ws n st = .ok n' st') :
    (∃ w, ws.find? (·.inside.param.name = n) = some w ∧ w.outside.param.name = n') ∧
      st' = st := by
  unfold returned at h
  cases hfind : ws.find? (·.inside.param.name = n) with
  | some w =>
    rw [hfind] at h
    obtain ⟨rfl, rfl⟩ := pure_eq_ok_iff.1 h
    exact ⟨⟨w, rfl, rfl⟩, rfl⟩
  | none =>
    rw [hfind] at h
    exact absurd h AttemptM.fail_ne_ok

/-- The results of the map have the types of the carried values outside, and fresh names. -/
theorem nameResult_eq_ok {w : Widened} {r : Binder}
    (h : (do
      let name ← Supply.freshSuffixed w.outside.param.name "_res"
      return (⟨name, w.outside.param.ty⟩ : Binder) : AttemptM Binder) st = .ok r st') :
    r.ty = w.outside.param.ty ∧ Drawn st.supply.next st'.supply.next [r.name] ∧
      st.supply.next ≤ st'.supply.next := by
  obtain ⟨name, s₁, hname, hpure⟩ := bind_eq_ok_iff.1 h
  obtain ⟨supply, hfresh, rfl⟩ := AttemptM.liftM_eq_ok_iff.1 hname
  obtain ⟨-, rfl, rfl⟩ := Supply.fresh_eq_ok_iff.1 hfresh
  obtain ⟨rfl, rfl⟩ := pure_eq_ok_iff.1 hpure
  exact ⟨rfl, Drawn.singleton (Nat.le_refl _) (Nat.lt_succ_self _), Nat.le_succ _⟩

end Steps

/-! ### Crossing one level -/

namespace LoopStm

/-- The map that runs one iteration of a loop for each iteration of a level. -/
def mapStm (l : LoopStm) (level : Level) (widened : List Widened) (handed : List Handed)
    (results : List Binder) : Stm :=
  let inputs : List RowInput := handed.map (·.input) ++
    widened.map fun w => ⟨w.inside.param, w.outside.param.name⟩
  ⟨results, .map level.checks level.width
    ⟨level.index, inputs.map (·.param), l.loop.body, widened.map (·.inside.param.ty)⟩
    (inputs.map (·.array))⟩

/-- The loop as it stands outside a level. -/
def outside (l : LoopStm) (level : Level) (widened : List Widened) (handed : List Handed)
    (results : List Binder) (ret : List Name) : LoopStm :=
  ⟨level.pattern, ⟨ret, widened.map (·.outside), l.loop.form,
    Body.ofStms (handed.flatMap (·.copies) ++ [l.mapStm level widened handed results])
      (Pattern.operands results)⟩⟩

/-- The loop outside carries the arrays of the widened values. -/
theorem names_outside {l : LoopStm} {level : Level} {widened : List Widened} {handed : List Handed}
    {results : List Binder} {ret : List Name} :
    (l.outside level widened handed results ret).loop.names
      = widened.map (·.outside.param.name) :=
  List.map_map ..

/-- What moving a loop out of a level comes to, with names drawn from one tag on to below
another. -/
inductive Crosses (level : Level) (l : LoopStm) (lo hi : Nat) : Interchanged → Prop
  | intro {index : Name} {bound : Operand} {widened : List Widened} {handed : List Handed}
      {results : List Binder} {ret : List Name} {a b : Nat}
      (hform : l.loop.form = .forBelow index bound)
      (hbound : ∀ n, bound = .var n → n ∉ level.bound)
      (hwidened : List.Forall₂ level.Widens l.loop.merge widened)
      (hexpanded : Drawn lo a (widened.flatMap Widened.drawn))
      (hhanded : List.Forall₂ level.Hands
        (level.inputs.filter (·.param.name ∈ l.loop.reads)) handed)
      (hcopied : Drawn a b (handed.flatMap fun h => Stm.patternNames h.copies))
      (hresults : List.Forall₂ (fun w r => r.ty = w.outside.param.ty) widened results)
      (hdrawn : Drawn b hi (Pattern.names results))
      (hret : List.Forall₂ (fun n n' => ∃ w,
        widened.find? (·.inside.param.name = n) = some w ∧ w.outside.param.name = n')
        l.loop.ret ret)
      (hlen : ret.length = level.pattern.length)
      (hle : lo ≤ a ∧ a ≤ b ∧ b ≤ hi) :
      Crosses level l lo hi ⟨widened.flatMap (·.replicates),
        l.outside level widened handed results ret⟩

namespace Crosses

variable {level : Level} {l : LoopStm} {lo hi : Nat} {out : Interchanged}

/-- Tags only grow. -/
theorem le (h : Crosses level l lo hi out) : lo ≤ hi := by
  cases h with
  | intro _ _ _ _ _ _ _ _ _ _ hle => omega

/-- The loop outside counts as the loop inside did. -/
theorem form_eq (h : Crosses level l lo hi out) : out.loop.loop.form = l.loop.form := by
  cases h with
  | intro => rfl

/-- The loop outside returns as many values as the loop inside did. -/
theorem length_ret (h : Crosses level l lo hi out) :
    out.loop.loop.ret.length = l.loop.ret.length := by
  cases h with
  | intro _ _ _ _ _ _ _ _ hret => exact hret.length_eq.symm

/-- Each carried value is widened, and all replications stand in front of the loop. -/
theorem exists_widened (h : Crosses level l lo hi out) :
    ∃ widened, List.Forall₂ level.Widens l.loop.merge widened ∧
      out.loop.loop.merge = widened.map (·.outside) ∧
      out.prelude = widened.flatMap (·.replicates) := by
  cases h with
  | intro _ _ hwidened => exact ⟨_, hwidened, rfl, rfl⟩

/-- A replication in front of the loop was made for one of the carried values. -/
theorem exists_of_mem_prelude (h : Crosses level l lo hi out) {s : Stm} (hs : s ∈ out.prelude) :
    ∃ m ∈ l.loop.merge, ∃ w, level.Widens m w ∧ s ∈ w.replicates := by
  obtain ⟨widened, hwidened, -, hprelude⟩ := h.exists_widened
  rw [hprelude] at hs
  obtain ⟨w, hw, hs⟩ := List.mem_flatMap.1 hs
  obtain ⟨m, hm, hwiden⟩ := exists_of_mem_right hwidened hw
  exact ⟨m, hm, w, hwiden, hs⟩

/-- The carried values outside have fresh names. -/
theorem drawn_names (h : Crosses level l lo hi out) : Drawn lo hi out.loop.loop.names := by
  cases h with
  | intro _ _ _ hexpanded _ _ _ _ _ _ hle =>
    rw [names_outside]
    exact (hexpanded.sublist Widened.sublist_outside).mono (Nat.le_refl _) (by omega)

/-- The replications have fresh names. -/
theorem drawn_prelude (h : Crosses level l lo hi out) :
    Drawn lo hi (Stm.patternNames out.prelude) := by
  cases h with
  | intro _ _ _ hexpanded _ _ _ _ _ _ hle =>
    exact (hexpanded.sublist Widened.sublist_replicates).mono (Nat.le_refl _) (by omega)

end Crosses

/-- What a loop that is moved out of a level becomes: how its carried values are widened, which
arrays are handed to the map, and what is drawn for the results of the map and returned. -/
structure Crossing (copyConsumed : Bool) (level : Level) (l : LoopStm) (lo hi : Nat)
    (widened : List Widened) (handed : List Handed) (results : List Binder) (ret : List Name) :
    Prop where
  form : ∃ index bound, l.loop.form = .forBelow index bound ∧
    ∀ n, bound = .var n → n ∉ level.bound
  widens : List.Forall₂ level.Widens l.loop.merge widened
  hands : List.Forall₂ (level.HandsBy copyConsumed)
    (level.inputs.filter (·.param.name ∈ l.loop.reads)) handed
  types : List.Forall₂ (fun w r => r.ty = w.outside.param.ty) widened results
  returns : List.Forall₂ (fun n n' => ∃ w,
    widened.find? (·.inside.param.name = n) = some w ∧ w.outside.param.name = n') l.loop.ret ret
  length_ret : ret.length = level.pattern.length
  drawn : ∃ a b, Drawn lo a (widened.flatMap Widened.drawn) ∧
    Drawn a b (handed.flatMap fun h => Stm.patternNames h.copies) ∧
    Drawn b hi (Pattern.names results) ∧ lo ≤ a ∧ a ≤ b ∧ b ≤ hi

/-- Forgetting which arrays were copied. -/
theorem Crossing.crosses {copyConsumed : Bool} {level : Level} {l : LoopStm} {lo hi : Nat}
    {widened : List Widened} {handed : List Handed} {results : List Binder} {ret : List Name}
    (h : Crossing copyConsumed level l lo hi widened handed results ret) :
    Crosses level l lo hi
      ⟨widened.flatMap (·.replicates), l.outside level widened handed results ret⟩ := by
  obtain ⟨index, bound, hform, hbound⟩ := h.form
  obtain ⟨a, b, hexpanded, hcopied, hdrawn, hle⟩ := h.drawn
  exact .intro hform hbound h.widens hexpanded (h.hands.imp fun _ _ hh => hh.hands) hcopied
    h.types hdrawn h.returns h.length_ret hle

/-- A loop that is moved out of a level has crossed it in each of its parts. -/
theorem interchange_eq_ok {copyConsumed : Bool} {level : Level} {l : LoopStm}
    {st st' : Attempt} {out : Interchanged}
    (h : l.interchange copyConsumed level st = .ok out st') :
    ∃ widened handed results ret,
      Crossing copyConsumed level l st.supply.next st'.supply.next widened handed results ret ∧
      out = ⟨widened.flatMap (·.replicates), l.outside level widened handed results ret⟩ := by
  unfold interchange at h
  obtain ⟨u, s₀, haccept, hrest⟩ := bind_eq_ok_iff.1 h
  obtain ⟨index, bound, hform, hbound, rfl⟩ := Level.accept_eq_ok haccept
  obtain ⟨widened, s₁, hwidened, hrest⟩ := bind_eq_ok_iff.1 hrest
  obtain ⟨handed, s₂, hhanded, hrest⟩ := bind_eq_ok_iff.1 hrest
  obtain ⟨results, s₃, hresults, hrest⟩ := bind_eq_ok_iff.1 hrest
  obtain ⟨ret, s₄, hret, hrest⟩ := bind_eq_ok_iff.1 hrest
  -- Each of the four runs over a list draws its names after those of the run before.
  obtain ⟨hw, hexpanded, hle₁⟩ := mapM_drawn (R := level.Widens)
    (fun m w st st' hrun => Level.widens_of_widen_eq_ok hrun) hwidened
  obtain ⟨hh, hcopied, hle₂⟩ := mapM_drawn (R := level.HandsBy copyConsumed)
    (fun i h st st' hrun => Level.hands_of_hand_eq_ok hrun) hhanded
  obtain ⟨hr, hdrawn, hle₃⟩ := mapM_drawn (R := fun w r => r.ty = w.outside.param.ty)
    (d := fun r => [r.name]) (fun w r st st' hrun => nameResult_eq_ok hrun) hresults
  obtain ⟨hret', -, hle₄⟩ := mapM_drawn (f := Widened.returned widened) (d := fun _ => [])
    (fun n n' st st' hrun => ⟨(Widened.returned_eq_ok hrun).1, Drawn.nil,
      Nat.le_of_eq (by rw [(Widened.returned_eq_ok hrun).2])⟩) hret
  split at hrest
  · rename_i hlen
    obtain ⟨rfl, rfl⟩ := pure_eq_ok_iff.1 hrest
    rw [← List.map_eq_flatMap] at hdrawn
    refine ⟨widened, handed, results, ret, ⟨⟨index, bound, hform, hbound⟩, hw, hh, hr, hret', hlen,
      _, _, hexpanded, hcopied, hdrawn.mono (Nat.le_refl _) hle₄, hle₁, hle₂, ?_⟩, rfl⟩
    exact Nat.le_trans hle₃ hle₄
  · obtain ⟨u, s₅, hfail, hrest⟩ := bind_eq_ok_iff.1 hrest
    exact absurd hfail AttemptM.fail_ne_ok

/-- A loop that is moved out of a level has crossed it. -/
theorem crosses_of_interchange_eq_ok {copyConsumed : Bool} {level : Level} {l : LoopStm}
    {st st' : Attempt} {out : Interchanged}
    (h : l.interchange copyConsumed level st = .ok out st') :
    Crosses level l st.supply.next st'.supply.next out := by
  obtain ⟨widened, handed, results, ret, hcrossing, rfl⟩ := interchange_eq_ok h
  exact hcrossing.crosses

/-- What moving a loop out of some levels comes to, the last level of the list first. -/
inductive CrossesAll (l : LoopStm) : List Level → Nat → Nat → Interchanged → Prop
  /-- Without levels the loop stays as it is. -/
  | nil {lo : Nat} : CrossesAll l [] lo lo ⟨[], l⟩
  /-- The loop that has left the levels further inside leaves one more. -/
  | cons {level : Level} {rest : List Level} {inner outer : Interchanged} {lo mid hi : Nat}
      (hinner : CrossesAll l rest lo mid inner) (houter : Crosses level inner.loop mid hi outer) :
      CrossesAll l (level :: rest) lo hi ⟨inner.prelude ++ outer.prelude, outer.loop⟩

/-- Tags only grow. -/
theorem CrossesAll.le {l : LoopStm} {levels : List Level} {lo hi : Nat} {out : Interchanged}
    (h : CrossesAll l levels lo hi out) : lo ≤ hi := by
  induction h with
  | nil => exact Nat.le_refl _
  | cons _ houter ih => exact Nat.le_trans ih houter.le

/-- A loop is moved out of some levels by moving it out of those further inside and then out of one
more. The note on that draws no name. -/
theorem interchangeLevels_cons_eq_ok {copyConsumed : Bool} {l : LoopStm} {level : Level}
    {levels : List Level} {position : Nat} {st st' : Attempt} {out : Interchanged}
    (h : l.interchangeLevels copyConsumed position (level :: levels) st = .ok out st') :
    ∃ inner outer s₁ s₂,
      l.interchangeLevels copyConsumed (position + 1) levels st = .ok inner s₁ ∧
      inner.loop.interchange copyConsumed level s₁ = .ok outer s₂ ∧
      st'.supply = s₂.supply ∧ out = ⟨inner.prelude ++ outer.prelude, outer.loop⟩ := by
  rw [interchangeLevels] at h
  obtain ⟨inner, s₁, hinner, hrest⟩ := bind_eq_ok_iff.1 h
  obtain ⟨outer, s₂, houter, hrest⟩ := bind_eq_ok_iff.1 hrest
  obtain ⟨u, s₃, hnote, hpure⟩ := bind_eq_ok_iff.1 hrest
  obtain rfl := AttemptM.note_eq_ok_iff.1 hnote
  obtain ⟨rfl, rfl⟩ := pure_eq_ok_iff.1 hpure
  exact ⟨inner, outer, s₁, s₂, hinner, houter, rfl, rfl⟩

/-- A loop that is moved out of some levels has crossed each of them, the innermost first. -/
theorem crossesAll_of_interchangeLevels_eq_ok {copyConsumed : Bool} {l : LoopStm}
    {levels : List Level} {st : Attempt} :
    ∀ {position : Nat} {st' : Attempt} {out : Interchanged},
      l.interchangeLevels copyConsumed position levels st = .ok out st' →
      CrossesAll l levels st.supply.next st'.supply.next out := by
  induction levels with
  | nil =>
    intro position st' out h
    obtain ⟨rfl, rfl⟩ := pure_eq_ok_iff.1 h
    exact .nil
  | cons level rest ih =>
    intro position st' out h
    obtain ⟨inner, outer, s₁, s₂, hinner, houter, hsupply, rfl⟩ := interchangeLevels_cons_eq_ok h
    rw [hsupply]
    exact .cons (ih hinner) (crosses_of_interchange_eq_ok houter)

/-- A loop outside some levels binds the arrays of the outermost one. -/
theorem CrossesAll.pattern {level : Level} {levels : List Level} {l : LoopStm} {lo hi : Nat}
    {out : Interchanged} (h : CrossesAll l (level :: levels) lo hi out) :
    out.loop.pattern = level.pattern ∧ out.loop.loop.ret.length = level.pattern.length := by
  cases h with
  | cons _ houter =>
    cases houter with
    | intro _ _ _ _ _ _ _ _ _ hlen _ => exact ⟨rfl, hlen⟩

/-- The statements of a loop moved out of a nest are the replications and the loop. -/
theorem crossesAll_of_interchangeAll_eq_ok {copyConsumed : Bool} {l : LoopStm}
    {nest : KernelNest} {st st' : Attempt} {stms : List Stm}
    (h : l.interchangeAll copyConsumed nest st = .ok stms st') :
    ∃ out, CrossesAll l nest.toList st.supply.next st'.supply.next out ∧
      stms = out.prelude ++ [out.loop.toStm] := by
  unfold interchangeAll at h
  obtain ⟨out, hout, rfl⟩ := bind_pure_eq_ok_iff.1 h
  exact ⟨out, crossesAll_of_interchangeLevels_eq_ok hout, rfl⟩

end LoopStm

end MapNest
