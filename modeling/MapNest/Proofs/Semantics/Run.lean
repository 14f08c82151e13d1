import MapNest.Proofs.Analysis.Free
import MapNest.Proofs.Attempt
import MapNest.Proofs.Semantics.Value

/-!
# `MapNest.Proofs.Semantics.Run`: running statements

What a statement does is given for the forms that moving a loop brings about: replications, copies,
counting loops and maps. Everything else has no run here. A map fails if one of its arrays does not
have exactly one row for each iteration, and an iteration may fail.

The bodies of loops and maps are run by a parameter. `Body.runAt` is the case at hand: it runs the
bodies of some maps around one another itself, and hands the body inside all of them to a runner of
which nothing is known here.

Running depends on free names only (`Body.run_congr`). `mapM_range_bind` exchanges a map of loops
for a loop of maps, one iteration at a time, and `iterate_columns` does so for all of them.
-/

set_option autoImplicit false

namespace MapNest

/-! ### Operands and numbers -/

/-- The value of an operand. -/
def Operand.eval (ρ : Env) : Operand → Value
  | const c => .scalar c
  | var n => ρ n

namespace Value

/-- The number of iterations that a value stands for. Negative numbers stand for none. -/
def count : Value → Nat
  | scalar (.i32 n) => n.toInt.toNat
  | scalar (.i64 n) => n.toInt.toNat
  | _ => 0

/-- An array of exactly some number of rows. -/
def hasRows (w : Nat) : Value → Bool
  | scalar _ => false
  | array rows => rows.length = w

/-- An array of some number of rows is the array of these rows, one after the other. -/
theorem eq_of_hasRows {v : Value} {w : Nat} (h : v.hasRows w = true) :
    v = .array ((List.range w).map v.row) := by
  cases v with
  | scalar c => cases h
  | array rows =>
    have hlen : rows.length = w := by simpa [hasRows] using h
    subst hlen
    congr 1
    refine List.ext_getElem (by simp) ?_
    intro i h₁ h₂
    simp [row, h₁]

end Value

/-! ### Columns of rows -/

/-- The arrays with the given rows: one array for each place in a row. -/
def columns (k : Nat) (rows : List (List Value)) : List Value :=
  (List.range k).map fun c => .array (rows.map fun r => r.getD c default)

/-- There are as many columns as asked for, even if there are no rows. -/
@[simp] theorem length_columns {k : Nat} {rows : List (List Value)} :
    (columns k rows).length = k := by
  simp [columns]

/-- Row by row, the columns hold the rows. -/
theorem row_columns {k i : Nat} {rows : List (List Value)} (hi : i < rows.length) :
    (columns k rows).map (·.row i)
      = (List.range k).map fun c => (rows.getD i []).getD c default := by
  rw [columns, List.map_map]
  refine List.map_congr_left ?_
  intro c hc
  simp [Value.row, hi]

/-- Each column is as long as there are rows. -/
theorem hasRows_of_mem_columns {k : Nat} {rows : List (List Value)} {v : Value}
    (hv : v ∈ columns k rows) : v.hasRows rows.length = true := by
  obtain ⟨c, hc, rfl⟩ := List.mem_map.1 hv
  simp [Value.hasRows]

/-- The columns of rows that are computed place by place. -/
theorem columns_map_map {α β : Type} {as : List α} {bs : List β} {f : β → α → Value} :
    columns as.length (bs.map fun b => as.map (f b))
      = as.map fun a => .array (bs.map fun b => f b a) := by
  refine List.ext_getElem (by simp) ?_
  intro c h₁ h₂
  have hc : c < as.length := by simpa using h₂
  simp [columns, Function.comp_def, hc]

/-- Selecting columns is selecting within each row. -/
theorem map_getD_columns {k : Nat} {rows : List (List Value)} {ps : List Nat}
    (hps : ∀ p ∈ ps, p < k) :
    ps.map ((columns k rows).getD · default)
      = columns ps.length (rows.map fun r => ps.map (r.getD · default)) := by
  rw [columns_map_map]
  refine List.map_congr_left ?_
  intro p hp
  simp [columns, hps p hp]

/-! ### Iterations -/

/-- A pass over the iterations succeeds exactly if each of them gives what stands at its place. -/
theorem mapM_range_eq_some_iff {α : Type} [Inhabited α] {w : Nat} {x : Nat → Option α}
    {ys : List α} :
    (List.range w).mapM x = some ys ↔
      ys.length = w ∧ ∀ i < w, x i = some (ys.getD i default) := by
  rw [mapM_eq_some_iff, List.forall₂_iff_get]
  constructor
  · rintro ⟨hlen, h⟩
    rw [List.length_range] at hlen
    refine ⟨hlen.symm, ?_⟩
    intro i hi
    have := h i (by simpa using hi) (by omega)
    simpa [show i < ys.length by omega] using this
  · rintro ⟨hlen, h⟩
    refine ⟨by simp [hlen], ?_⟩
    intro i hi hi'
    have := h i (by omega)
    simpa [hi'] using this

/-- Passes that agree in each iteration agree. -/
theorem mapM_range_congr {α : Type} [Inhabited α] {w : Nat} {x y : Nat → Option α}
    (h : ∀ i < w, x i = y i) : (List.range w).mapM x = (List.range w).mapM y := by
  refine Option.ext fun ys => ?_
  rw [mapM_range_eq_some_iff, mapM_range_eq_some_iff]
  refine and_congr_right fun _ => forall_congr' fun i => ?_
  constructor
  · intro hx hi
    rw [← h i hi, hx hi]
  · intro hy hi
    rw [h i hi, hy hi]

/-- What is done with each result may be done once the pass is over. -/
theorem mapM_range_map {α β : Type} [Inhabited α] [Inhabited β] {w : Nat} {x : Nat → Option α}
    {f : α → β} :
    ((List.range w).mapM fun i => (x i).map f) = ((List.range w).mapM x).map (List.map f) := by
  refine Option.ext fun zs => ?_
  simp only [Option.map_eq_some_iff, mapM_range_eq_some_iff]
  constructor
  · rintro ⟨hlen, h⟩
    choose! y hx hf using h
    refine ⟨(List.range w).map y, ⟨by simp, ?_⟩, ?_⟩
    · intro i hi
      simp [hx i hi, hi]
    · refine List.ext_getElem (by simp [hlen]) fun i h₁ h₂ => ?_
      have hi : i < w := by omega
      simpa [h₂] using hf i hi
  · rintro ⟨ys, ⟨hlen, h⟩, rfl⟩
    refine ⟨by simp [hlen], fun i hi => ⟨_, h i hi, ?_⟩⟩
    simp [show i < ys.length by omega]

/-- The results of passes that succeed. -/
theorem mapM_range_eq_some_map {α : Type} [Inhabited α] {w : Nat} {x : Nat → Option α}
    {f : Nat → α} (h : ∀ i < w, x i = some (f i)) :
    (List.range w).mapM x = some ((List.range w).map f) := by
  rw [mapM_range_eq_some_iff]
  refine ⟨by simp, ?_⟩
  intro i hi
  rw [h i hi]
  simp [hi]

/-- Two passes over the iterations are one pass, if each iteration of the second goes on from what
the first left there. -/
theorem mapM_range_bind {α β : Type} [Inhabited α] [Inhabited β] {w : Nat} {x : Nat → Option α}
    {g : Nat → α → Option β} :
    ((List.range w).mapM x).bind (fun ys => (List.range w).mapM fun i => g i (ys.getD i default))
      = (List.range w).mapM fun i => (x i).bind (g i) := by
  refine Option.ext fun zs => ?_
  simp only [Option.bind_eq_some_iff, mapM_range_eq_some_iff]
  constructor
  · rintro ⟨ys, ⟨hys, hx⟩, hzs, hg⟩
    exact ⟨hzs, fun i hi => ⟨_, hx i hi, hg i hi⟩⟩
  · rintro ⟨hzs, h⟩
    choose! y hx hg using h
    refine ⟨(List.range w).map y, ⟨by simp, ?_⟩, hzs, ?_⟩
    · intro i hi
      simp [hx i hi, hi]
    · intro i hi
      simpa [hi] using hg i hi

/-- A state carried through some steps, which are numbered from zero on. -/
def iterate (step : Nat → List Value → Option (List Value)) : Nat → List Value → Option (List Value)
  | 0, s => some s
  | k + 1, s => (iterate step k s).bind (step k)

/-- Steps that never fail can be iterated. -/
theorem exists_iterate (f : Nat → List Value → List Value) (t : Nat) (s : List Value) :
    ∃ s', iterate (fun k s => some (f k s)) t s = some s' := by
  induction t with
  | zero => exact ⟨s, rfl⟩
  | succ t ih =>
    obtain ⟨s', hs'⟩ := ih
    refine ⟨f t s', ?_⟩
    rw [iterate, hs']
    rfl

/-- One step for all iterations of a map at once, or the steps of each iteration by themselves. -/
theorem iterate_columns {w m : Nat} {g : Nat → Nat → List Value → Option (List Value)}
    {f : Nat → List Value → Option (List Value)} {inits : List (List Value)}
    (hinits : inits.length = w)
    (hstep : ∀ k rows, rows.length = w → f k (columns m rows)
      = ((List.range w).mapM fun i => g i k (rows.getD i default)).map (columns m)) :
    ∀ t, iterate f t (columns m inits)
      = ((List.range w).mapM fun i => iterate (g i) t (inits.getD i default)).map (columns m) := by
  intro t
  -- After `t` steps the state is the columns of the states of the iterations after `t` steps each.
  induction t with
  | zero =>
    have hsome : (List.range w).mapM (fun i => iterate (g i) 0 (inits.getD i default))
        = some inits := mapM_range_eq_some_iff.2 ⟨hinits, fun i hi => rfl⟩
    rw [hsome]
    rfl
  | succ t ih =>
    -- The last step goes on from what each iteration has reached, by `mapM_range_bind`.
    have hsucc : (fun i => iterate (g i) (t + 1) (inits.getD i default))
        = fun i => (iterate (g i) t (inits.getD i default)).bind (g i t) := rfl
    rw [iterate, ih, hsucc, ← mapM_range_bind, Option.bind_map, Option.map_bind]
    refine Option.bind_congr fun rows hrows => ?_
    exact hstep t rows (mapM_range_eq_some_iff.1 hrows).1

/-! ### Running -/

/-- A way to run bodies. -/
abbrev Runner := Body → Env → Option (List Value)

namespace Loop

/-- The positions of the returned values among the carried ones. -/
def positions? (l : Loop) : Option (List Nat) := l.ret.mapM fun n => l.names.findIdx? (· = n)

/-- What holds in an iteration of a counting loop, given the carried values. -/
def enter (l : Loop) (index : Name) (k : Nat) (s : List Value) (ρ : Env) : Env :=
  (ρ.bind index (.ofIndex k)).bindAll l.names s

/-- The values that a loop returns. -/
def run (inner : Runner) (l : Loop) (ρ : Env) : Option (List Value) :=
  match l.form with
  | .whileTrue _ => none
  | .forBelow index bound =>
    l.positions?.bind fun ps =>
      (iterate (fun k s => inner l.body (l.enter index k s ρ)) (bound.eval ρ).count
        (l.merge.map fun m => m.init.eval ρ)).map fun last => ps.map (last.getD · default)

end Loop

/-- A counting loop iterates its body on the carried values, from the initial ones on. -/
theorem Loop.run_forBelow {inner : Runner} {l : Loop} {ρ : Env} {index : Name} {bound : Operand}
    (h : l.form = .forBelow index bound) :
    l.run inner ρ = l.positions?.bind fun ps =>
      (iterate (fun k s => inner l.body (l.enter index k s ρ)) (bound.eval ρ).count
        (l.merge.map fun m => m.init.eval ρ)).map fun last => ps.map (last.getD · default) := by
  rw [Loop.run, h]

/-- What holds in an iteration of a function over the rows of some arrays. -/
def Lambda.enter (f : Lambda) (i : Nat) (arrays : List Value) (ρ : Env) : Env :=
  (ρ.bind f.index (.ofIndex i)).bindAll (Pattern.names f.params) (arrays.map (·.row i))

/-- The arrays that a function gives over the rows of some arrays. -/
def Lambda.run (inner : Runner) (f : Lambda) (w : Nat) (arrays : List Value) (ρ : Env) :
    Option (List Value) :=
  if arrays.all (Value.hasRows w) then
    ((List.range w).mapM fun i => inner f.body (f.enter i arrays ρ)).map (columns f.returns.length)
  else none

/-- The value of an operation, for replications and copies. -/
def Op.value? (ρ : Env) : Op → Option Value
  | copy array => some (ρ array)
  | replicate n v => some (.array (List.replicate (n.eval ρ).count (v.eval ρ)))
  | _ => none

/-- The values of an expression. -/
def Exp.run (inner : Runner) (ρ : Env) : Exp → Option (List Value)
  | .op o => (o.value? ρ).map ([·])
  | .loop l => l.run inner ρ
  | .map _ width f arrays => f.run inner (width.eval ρ).count (arrays.map ρ) ρ
  | _ => none

/-- What holds after a statement. -/
def Stm.run (inner : Runner) (s : Stm) (ρ : Env) : Option Env :=
  (s.exp.run inner ρ).map (ρ.bindAll (Pattern.names s.pattern))

/-- What holds after some statements. -/
def Stm.runAll (inner : Runner) : List Stm → Env → Option Env
  | [], ρ => some ρ
  | s :: rest, ρ => (s.run inner ρ).bind (runAll inner rest)

namespace Body

/-- The values that a body yields. -/
def run (inner : Runner) : Body → Env → Option (List Value)
  | .yield values, ρ => some (values.map (Operand.eval ρ))
  | .bind pattern exp rest, ρ =>
    (exp.run inner ρ).bind fun vs => rest.run inner (ρ.bindAll (Pattern.names pattern) vs)

/-- Runs a body with some number of maps around one another in it. The body inside all of them is
run in the given way. -/
def runAt (inner : Runner) : Nat → Runner
  | 0, b, ρ => inner b ρ
  | d + 1, b, ρ => b.run (runAt inner d) ρ

/-- A body of statements runs them, and then yields. -/
theorem run_ofStms {inner : Runner} {stms : List Stm} {values : List Operand} {ρ : Env} :
    (ofStms stms values).run inner ρ
      = (Stm.runAll inner stms ρ).map fun σ => values.map (Operand.eval σ) := by
  induction stms generalizing ρ with
  | nil => rfl
  | cons s stms ih =>
    rw [ofStms_cons, run, Stm.runAll, Stm.run, Option.map_bind, Option.bind_map]
    exact Option.bind_congr fun vs _ => ih

end Body

/-- Statements run one after the other. -/
theorem Stm.runAll_append {inner : Runner} {stms stms' : List Stm} {ρ : Env} :
    runAll inner (stms ++ stms') ρ = (runAll inner stms ρ).bind (runAll inner stms') := by
  induction stms generalizing ρ with
  | nil => rfl
  | cons s stms ih =>
    rw [List.cons_append, runAll, runAll, Option.bind_assoc]
    exact Option.bind_congr fun σ _ => ih

/-! ### Running depends on free names -/

/-- The runs of a body depend on its free names only. -/
def Runner.Respects (inner : Runner) (b : Body) : Prop :=
  ∀ ρ σ : Env, (∀ n ∈ b.free, ρ n = σ n) → inner b ρ = inner b σ

/-- The runs of the bodies that an expression is made of depend on their free names only. -/
def Exp.Respected (inner : Runner) : Exp → Prop
  | .loop l => inner.Respects l.body
  | .map _ _ f _ => inner.Respects f.body
  | _ => True

/-- An operand has one value in environments that agree on it. -/
theorem Operand.eval_congr {ρ σ : Env} {v : Operand} (h : ∀ n, v = .var n → ρ n = σ n) :
    v.eval ρ = v.eval σ := by
  cases v with
  | const c => rfl
  | var n => exact h n rfl

/-- An operation has one value in environments that agree on what it mentions. -/
theorem Op.value?_congr {ρ σ : Env} {o : Op} (h : ∀ n ∈ o.mentions, ρ n = σ n) :
    o.value? ρ = o.value? σ := by
  cases o with
  | copy array => exact congrArg some (h array (List.mem_singleton_self _))
  | replicate count v =>
    have hcount : count.eval ρ = count.eval σ :=
      Operand.eval_congr fun n hn => h n (by simp [mentions, hn])
    have hv : v.eval ρ = v.eval σ := Operand.eval_congr fun n hn => h n (by simp [mentions, hn])
    rw [value?, value?, hcount, hv]
  | _ => rfl

/-- What a loop returns depends on its free names only, if that is so for its body. -/
theorem Loop.run_congr {inner : Runner} {l : Loop} {ρ σ : Env} (hinner : inner.Respects l.body)
    (h : ∀ n ∈ l.free, ρ n = σ n) : l.run inner ρ = l.run inner σ := by
  unfold run
  cases hform : l.form with
  | whileTrue cond => rfl
  | forBelow index bound =>
    have hbound : bound.eval ρ = bound.eval σ := by
      refine Operand.eval_congr fun n hn => h n (Loop.mem_free.2 (Or.inr (Or.inr ?_)))
      simp [hform, LoopForm.bounds, hn]
    have hinits : (l.merge.map fun m => m.init.eval ρ) = l.merge.map fun m => m.init.eval σ := by
      refine List.map_congr_left fun m hm => Operand.eval_congr fun n hn => ?_
      exact h n (Loop.mem_free.2 (Or.inr (Or.inl ⟨m, hm, hn⟩)))
    -- The index and the carried values are the same in any case.
    have hbody : (fun k s => inner l.body (l.enter index k s ρ))
        = fun k s => inner l.body (l.enter index k s σ) := by
      funext k s
      refine hinner _ _ fun n hn => Env.bindAll_congr fun hnames => ?_
      by_cases hindex : n = index
      · rw [hindex, Env.bind_self, Env.bind_self]
      · rw [Env.bind_of_ne hindex, Env.bind_of_ne hindex]
        refine h n (Loop.mem_free.2 (Or.inl ⟨Or.inl hn, ?_, hnames⟩))
        simp [hform, LoopForm.binders, Ne.symm hindex]
    simp only [hbound, hinits, hbody]

/-- What a function gives depends on its free names only, if that is so for its body. -/
theorem Lambda.run_congr {inner : Runner} {f : Lambda} {w : Nat} {arrays : List Value} {ρ σ : Env}
    (hinner : inner.Respects f.body) (h : ∀ n ∈ f.free, ρ n = σ n) :
    f.run inner w arrays ρ = f.run inner w arrays σ := by
  have hbody : (fun i => inner f.body (f.enter i arrays ρ))
      = fun i => inner f.body (f.enter i arrays σ) := by
    funext i
    refine hinner _ _ fun n hn => Env.bindAll_congr fun hnames => ?_
    by_cases hindex : n = f.index
    · rw [hindex, Env.bind_self, Env.bind_self]
    · rw [Env.bind_of_ne hindex, Env.bind_of_ne hindex]
      exact h n (Lambda.mem_free.2 ⟨Or.inl hn, hindex, hnames⟩)
  unfold run
  rw [hbody]

/-- What an expression gives depends on its free names only, if that is so for its bodies. -/
theorem Exp.run_congr {inner : Runner} {e : Exp} {ρ σ : Env} (hinner : e.Respected inner)
    (h : ∀ n ∈ e.free, ρ n = σ n) : e.run inner ρ = e.run inner σ := by
  cases e with
  | op o =>
    rw [run, run, Op.value?_congr fun n hn => h n (NameSet.mem_ofList.2 hn)]
  | loop l => exact Loop.run_congr hinner h
  | map checks width f arrays =>
    have hmem : ∀ n, n ∈ f.free ∨ width = .var n ∨ n ∈ arrays → ρ n = σ n := by
      intro n hn
      refine h n ?_
      rw [Exp.free, NameSet.mem_union, NameSet.mem_ofList, List.mem_append, List.mem_append,
        Operand.mem_names, List.mem_singleton]
      rcases hn with hn | hn | hn
      · exact Or.inl hn
      · exact Or.inr (Or.inl (Or.inr hn.symm))
      · exact Or.inr (Or.inr hn)
    have hwidth : width.eval ρ = width.eval σ :=
      Operand.eval_congr fun n hn => hmem n (Or.inr (Or.inl hn))
    have harrays : arrays.map ρ = arrays.map σ :=
      List.map_congr_left fun n hn => hmem n (Or.inr (Or.inr hn))
    rw [run, run, hwidth, harrays]
    exact Lambda.run_congr hinner fun n hn => hmem n (Or.inl hn)
  | _ => rfl

/-- What a body yields depends on its free names only, if that is so for the bodies inside it. -/
theorem Body.run_congr {inner : Runner} : ∀ {b : Body} {ρ σ : Env},
    (∀ s ∈ b.stms, s.exp.Respected inner) → (∀ n ∈ b.free, ρ n = σ n) →
      b.run inner ρ = b.run inner σ
  | .yield values, ρ, σ, _, h => by
    refine congrArg some (List.map_congr_left fun v hv => Operand.eval_congr fun n hn => ?_)
    exact h n (NameSet.mem_ofList.2 (Operand.mem_names.2 (hn ▸ hv)))
  | .bind pattern exp rest, ρ, σ, hinner, h => by
    have hexp : exp.run inner ρ = exp.run inner σ := by
      refine Exp.run_congr (hinner ⟨pattern, exp⟩ (List.mem_cons_self ..)) fun n hn => h n ?_
      simp [Body.free, hn]
    rw [run, run, hexp]
    refine Option.bind_congr fun vs _ => ?_
    refine Body.run_congr (fun s hs => hinner s (List.mem_cons_of_mem _ hs)) fun n hn => ?_
    refine Env.bindAll_congr fun hpattern => h n ?_
    rw [Body.free, NameSet.mem_union, NameSet.mem_sdiff, NameSet.mem_ofList]
    exact Or.inr ⟨hn, hpattern⟩

end MapNest
