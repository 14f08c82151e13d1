import MapNest.Proofs.Analysis.Overwrites
import MapNest.Proofs.Unique

/-!
# `MapNest.Proofs.Kept`: what is consumed is handed in

A level of a kernel drops the parameters that nothing further inside reads. It must not drop one
that is consumed there, for then the array would be overwritten without being handed in. That it
does not follows from one inclusion: what is consumed is read (`Exp.Separate.mem_free`).

The inclusion has two exceptions, and `Exp.Separate` excludes both. An index that is updated is
consumed outside of the construct that binds it, where it is not free; and so is an array that a
kernel reads although it binds the name itself. Apart from these, an expression binds the same names
in both analyses, so the inclusion goes through each construct by the same two steps: what the
expression takes it mentions (`Exp.mem_free_of_mem_given`), and what is free inside is free unless
it is a parameter or an index (`Exp.mem_free_of_inside`).

The demand of the levels inherits the inclusion (`Demand.mem_free_of_mem_consumed`), and a parameter
that is demanded is kept as it is (`Builds.mem_inputs_of_mem_free`).
-/

set_option autoImplicit false

namespace MapNest

variable {n : Name}

/-! ### Consumed names are free -/

section Analysis

variable {e : Exp} {parts : List Exp} {stms : List Stm}

namespace Exp

/-- The kernel that an expression is. -/
def kernel? : Exp → Option Kernel
  | .kernel k => some k
  | _ => none

/-- The names that an expression gives away: the array it updates, the arrays that it hands to
parameters, and the initial values. -/
def given (e : Exp) : List Name := e.source?.toList ++ Operand.names (e.gives.map (·.2))

/-- No index of some expressions is given away by one of them, and no kernel draws a parameter from
a name that it binds itself. -/
structure Separate (parts : List Exp) : Prop where
  indices : ∀ p ∈ parts, ∀ n ∈ p.indices, ∀ q ∈ parts, n ∉ q.given
  arrays : ∀ p ∈ parts, ∀ k ∈ p.kernel?, ∀ i ∈ k.inputs, i.array ∉ k.names

/-- Some of these expressions are separate too. -/
theorem Separate.mono {parts' : List Exp} (h : Separate parts) (hsub : ∀ p ∈ parts', p ∈ parts) :
    Separate parts' where
  indices p hp n hn q hq := h.indices p (hsub p hp) n hn q (hsub q hq)
  arrays p hp := h.arrays p (hsub p hp)

/-- A name is given away as the source of an update, or as what a parameter takes. -/
theorem mem_given : n ∈ e.given ↔ e.source? = some n ∨ ∃ g ∈ e.gives, g.2 = .var n := by
  simp only [given, List.mem_append, Option.mem_toList, Operand.mem_names, List.mem_map]

/-- What may be overwritten is given away. -/
theorem mem_given_of_mem_taken (h : n ∈ e.taken) : n ∈ e.given :=
  mem_given.2 ((mem_taken.1 h).imp_right fun ⟨g, hg, _, heq⟩ => ⟨g, hg, heq⟩)

/-- What an expression gives away is free in it, if no kernel reads an array that it binds. -/
theorem mem_free_of_mem_given (h : ∀ k ∈ e.kernel?, ∀ i ∈ k.inputs, i.array ∉ k.names)
    (hn : n ∈ e.given) : n ∈ e.free := by
  rw [mem_given] at hn
  cases e with
  | op o => simp [source?, gives] at hn
  | update checks source indices value =>
    simp only [source?, gives, List.not_mem_nil, false_and, exists_false, or_false,
      Option.some.injEq] at hn
    simp [free, hn]
  | loop l =>
    simp only [source?, gives, reduceCtorEq, false_or, List.mem_map,
      exists_exists_and_eq_and] at hn
    rw [free]
    exact Loop.mem_free.2 (Or.inr (Or.inl hn))
  | map checks width function arrays =>
    obtain hsource | ⟨⟨b, v⟩, hg, rfl⟩ := hn
    · cases hsource
    · rw [free, NameSet.mem_union, NameSet.mem_ofList]
      exact Or.inr (List.mem_append_right _ (List.of_mem_zip (mem_gives_map.1 hg)).2)
  | kernel k =>
    simp only [source?, gives, reduceCtorEq, false_or, List.mem_map, exists_exists_and_eq_and,
      Operand.var.injEq] at hn
    obtain ⟨i, hi, rfl⟩ := hn
    rw [free]
    exact Kernel.mem_free.2 ⟨Or.inr (Or.inl (Or.inr (Or.inr (Or.inr (Or.inl
      ⟨i, hi, Or.inl rfl⟩))))), h k rfl i hi⟩

/-- What is free in the statements directly inside an expression is free in it, unless it is one of
its parameters or indices. -/
theorem mem_free_of_inside (hn : n ∈ Stm.freeAll e.inside) (hparams : n ∉ Pattern.names e.params)
    (hindices : n ∉ e.indices) : n ∈ e.free := by
  cases e with
  | op o => exact absurd hn NameSet.not_mem_empty
  | update checks source indices value => exact absurd hn NameSet.not_mem_empty
  | loop l =>
    rw [params, Loop.names_params] at hparams
    rw [free]
    exact Loop.mem_free.2 (Or.inl ⟨Or.inl (Body.mem_free_iff.2 (Or.inl hn)), hindices, hparams⟩)
  | map checks width function arrays =>
    rw [indices, List.mem_singleton] at hindices
    rw [free, NameSet.mem_union]
    exact Or.inl (Lambda.mem_free.2 ⟨Or.inl (Body.mem_free_iff.2 (Or.inl hn)), hindices, hparams⟩)
  | kernel k =>
    rw [free]
    refine Kernel.mem_free.2 ⟨Or.inl (Body.mem_free_iff.2 (Or.inl hn)), ?_⟩
    rw [Kernel.names, List.mem_append, not_or]
    refine ⟨hindices, ?_⟩
    rwa [params, Pattern.names, List.map_map] at hparams

end Exp

/-- If a list of statements consumes only what its members read, it reads what it consumes: the
names that are left out because a later statement binds them are bound by its patterns. -/
theorem Stm.mem_freeAll_of_forall_mem_free (h : ∀ s ∈ stms, n ∈ s.consumed → n ∈ s.exp.free)
    (hn : n ∈ Stm.consumedAll stms) : n ∈ Stm.freeAll stms := by
  obtain ⟨⟨s, hs, hconsumed⟩, hbound⟩ := Stm.mem_consumedAll.1 hn
  refine Stm.mem_freeAll_of_mem hs (Stm.mem_free.2 (Or.inl (h s hs hconsumed))) fun hname => ?_
  exact hbound (NameSet.mem_ofList.2 hname)

/-- What an expression consumes it reads. -/
theorem Exp.Separate.mem_free (h : Separate e.parts) (hn : n ∈ e.consumed) : n ∈ e.free := by
  induction e using Exp.induction with
  | within e ih =>
    have hinner : ∀ s ∈ e.inside, ∀ p ∈ s.exp.parts, p ∈ e.parts := fun s hs p hp =>
      mem_parts.2 (Or.inr ⟨s, hs, hp⟩)
    rcases mem_consumed_iff.1 hn with htaken | ⟨hinside, hparams⟩
    · exact mem_free_of_mem_given (h.arrays e self_mem_parts) (mem_given_of_mem_taken htaken)
    · refine mem_free_of_inside ?_ hparams fun hindex => ?_
      · exact Stm.mem_freeAll_of_forall_mem_free
          (fun s hs => ih s hs (h.mono (hinner s hs))) hinside
      · -- Some part inside takes the name, so it is no index.
        obtain ⟨⟨s, hs, hconsumed⟩, -⟩ := Stm.mem_consumedAll.1 hinside
        obtain ⟨p, hp, htaken⟩ := exists_mem_taken_of_mem_consumed hconsumed
        exact h.indices e self_mem_parts n hindex p (hinner s hs p hp)
          (mem_given_of_mem_taken htaken)

-- A map that overwrites its own index consumes it, although it is not free.
example :
    let f : Lambda := ⟨⟨"i", 0⟩, [], .bind [⟨⟨"u", 1⟩, .scalar .i32⟩]
      (.update [] ⟨"i", 0⟩ [] (.ofInt32 1)) (.yield [.var ⟨"u", 1⟩]), [.scalar .i32]⟩
    let e : Exp := .map [] (.ofInt32 2) f []
    ⟨"i", 0⟩ ∈ e.consumed ∧ ⟨"i", 0⟩ ∉ e.free := by
  decide

end Analysis

/-! ### Parameters are kept -/

section Levels

variable {s : Selection} {bound : NameSet} {levels : List (Enclosing × Target)} {lo hi : Nat}
  {built : Built} {d : Demand}

/-- If what is consumed is read inside some levels, it is outside as well, unless a level binds
it. -/
theorem Demand.mem_free_of_mem_consumed (hd : ∀ n ∈ d.consumed, n ∈ d.free) {levels : List Level}
    (hn : n ∈ (d.aroundAll levels).consumed) :
    n ∈ (d.aroundAll levels).free ∨ ∃ l ∈ levels, n ∈ l.bound := by
  induction levels with
  | nil => exact Or.inl (hd n hn)
  | cons l levels ih =>
    rcases NameSet.mem_union.1 hn with hinner | hlevel
    · obtain ⟨hinner, hbound⟩ := NameSet.mem_sdiff.1 hinner
      rcases ih hinner with hfree | ⟨l', hl', hbound'⟩
      · exact Or.inl (mem_aroundAll_cons.2 (Or.inr ⟨hfree, hbound⟩))
      · exact Or.inr ⟨l', List.mem_cons_of_mem _ hl', hbound'⟩
    · -- The level mentions the array that it takes.
      obtain ⟨r, hr, -, rfl⟩ := Level.mem_consumed.1 hlevel
      rcases (Level.mentions_array hr).mem_bound_or_free with hbound | hfree
      · exact Or.inr ⟨l, List.mem_cons_self .., hbound⟩
      · exact Or.inl (mem_aroundAll_cons.2 (Or.inl hfree))

/-- A level keeps the parameters that the levels inside demand. -/
theorem Builds.mem_inputs_of_mem_free (h : Builds s bound levels lo hi built) :
    ∀ {k : Nat} {e : Enclosing} {t : Target} {l : Level}, levels[k]? = some (e, t) →
      built.nest.toList[k]? = some l → ∀ {demand : Demand},
      demand = Demand.aroundAll ⟨s.free ∩ bound, s.consumed ∩ bound⟩
        (built.nest.toList.drop (k + 1)) →
      ∀ r ∈ e.level.inputs, r.param.name ∈ demand.free → r.demote demand.consumed ∈ l.inputs := by
  induction h with
  | innermost =>
    rintro k e t l hk hl demand rfl r hr hread
    obtain rfl : k = 0 := by
      have := (List.getElem?_eq_some_iff.1 hk).1
      simpa using this
    cases hk
    cases hl
    exact Frame.mem_inputs_closed.2 ⟨r, Or.inl ⟨hr, hread⟩, rfl⟩
  | enclose hwithin _ _ _ _ _ _ ih =>
    intro k e t l hk hl demand hdemand r hr hread
    rw [Stack.toList_pushOuter, Stack.toList_map] at hl hdemand
    rw [List.drop_succ_cons] at hdemand
    cases k with
    | zero =>
      cases hk
      cases hl
      rw [List.drop_zero, Demand.aroundAll_map_permute, ← hwithin.demand_eq] at hdemand
      subst hdemand
      exact Frame.mem_inputs_closed.2 ⟨r, Or.inl ⟨hr, hread⟩, rfl⟩
    | succ k =>
      -- Inside, only the order of the arrays has changed.
      rw [List.getElem?_cons_succ, List.getElem?_map, Option.map_eq_some_iff] at hl
      obtain ⟨l, hl, rfl⟩ := hl
      rw [← List.map_drop, Demand.aroundAll_map_permute] at hdemand
      exact ih hk hl hdemand r hr hread

end Levels

/-! ### The theorem -/

/-- Whatever is consumed is read. Statements in which no index is given away, and no kernel reads an
array that it binds itself, read all that they consume, and the selection that sums them up lists no
consumed name that it does not list as read. So a level of the kernel nest for them never drops a
parameter that the statements consume, or that a level further inside takes for a unique parameter:
it keeps it as it was. This can fail only for another reason, that not all names are distinct and a
level in between binds the name again. -/
theorem Selection.consumed_kept {stms : List Stm}
    (hseparate : Exp.Separate (stms.flatMap fun s => s.exp.parts)) :
    (∀ n ∈ Stm.consumedAll stms, n ∈ Stm.freeAll stms) ∧
    ∀ targets, (∀ n ∈ (ofStms targets stms).consumed, n ∈ (ofStms targets stms).free) ∧
      ∀ nesting st targets' nest st',
        (ofStms targets stms).kernelNest nesting st = .ok (targets', nest) st' →
        ∀ k e l, nesting.toList[k]? = some e → nest.toList[k]? = some l →
          ∀ r ∈ e.level.inputs,
            (r.param.name ∈ Stm.consumedAll stms ∨
              ∃ l' ∈ nest.toList.drop (k + 1), ∃ r' ∈ l'.inputs,
                r'.param.ty.isUnique ∧ r'.array = r.param.name) →
            r ∈ l.inputs ∨ (¬ st.Distinct nesting targets stms ∧
              ∃ l' ∈ nest.toList.drop (k + 1), r.param.name ∈ l'.bound) := by
  have hread : ∀ n ∈ Stm.consumedAll stms, n ∈ Stm.freeAll stms := fun n hn =>
    Stm.mem_freeAll_of_forall_mem_free (fun s hs => (hseparate.mono fun p hp =>
      List.mem_flatMap.2 ⟨s, hs, hp⟩).mem_free) hn
  have hselection : ∀ targets, ∀ n ∈ (ofStms targets stms).consumed,
      n ∈ (ofStms targets stms).free := fun targets n hn =>
    NameSet.mem_sdiff.2 ⟨hread n hn, (Stm.mem_consumedAll.1 hn).2⟩
  refine ⟨hread, fun targets => ⟨hselection targets, ?_⟩⟩
  intro nesting st targets' nest st' h k e l hk hl r hr hconsumed
  obtain ⟨hdepth, demand, harranges⟩ := Selection.arranges_of_kernelNest_eq_ok h
  obtain ⟨⟨e', t⟩, hx, -⟩ := exists_of_getElem?_right harranges.builds.forall₂ hl
  obtain rfl : e' = e := by
    rw [Nesting.getElem?_fst_levels hdepth hx] at hk
    exact Option.some.inj hk
  have hown : r.param.name ∈ e'.bound := Enclosing.param_mem_bound hr
  by_cases hagain : ∃ l' ∈ nest.toList.drop (k + 1), r.param.name ∈ l'.bound
  · refine Or.inr ⟨fun hd => ?_, hagain⟩
    obtain ⟨l', hl', hbound⟩ := hagain
    exact harranges.not_mem_bound_inside hd.apart hx (Enclosing.mem_names.2 hown) l' hl' hbound
  · -- The levels inside demand the name, as consumed and so as read.
    have hinner : ∀ l' ∈ nest.toList.drop (k + 1), r.param.name ∉ l'.bound := fun l' hl' hbound =>
      hagain ⟨l', hl', hbound⟩
    have hdemand : r.param.name ∈ (Demand.aroundAll
        ⟨(ofStms targets stms).free ∩ nesting.bound,
          (ofStms targets stms).consumed ∩ nesting.bound⟩
        (nest.toList.drop (k + 1))).consumed := by
      rw [Demand.mem_consumed_aroundAll hinner, NameSet.mem_inter]
      refine hconsumed.imp (fun hn => ⟨hn, ?_⟩) fun ⟨l', hl', htaken⟩ =>
        ⟨l', hl', Level.mem_consumed.2 htaken⟩
      exact Nesting.mem_bound.2 ⟨e', List.mem_of_getElem? hk, hown⟩
    have hfree := (Demand.mem_free_of_mem_consumed (fun n hn => ?_) hdemand).resolve_right hagain
    · have hkept := harranges.builds.mem_inputs_of_mem_free hx hl rfl r hr hfree
      rw [RowInput.demote, if_pos hdemand] at hkept
      exact Or.inl hkept
    · obtain ⟨hn, hbound⟩ := NameSet.mem_inter.1 hn
      exact NameSet.mem_inter.2 ⟨hselection targets n hn, hbound⟩

/-! A loop that overwrites what it carries, in two maps that also hand in what it does not read:

    map i < 2 (xs <- xss, ys <- yss):
      map j < 3 (x <- xs, y <- ys):
        b = loop (acc = x) for t < 4:
          u = acc with [t] <- 1
          u

The loop consumes `x`, and the inner level then takes `xs` for it. So `x` and `xs` are kept, while
`y` and `ys` are dropped. -/

namespace Updates

/-- The update. -/
def fill : Exp := .update [] ⟨"acc", 12⟩ [.var ⟨"t", 13⟩] (.ofInt32 1)

/-- The loop around it. -/
def filled : Stm :=
  ⟨[⟨⟨"b", 8⟩, ints [4]⟩],
    .loop ⟨[⟨"acc", 12⟩], [⟨⟨⟨"acc", 12⟩, ints [4]⟩, .var ⟨"x", 10⟩⟩],
      .forBelow ⟨"t", 13⟩ (.ofInt32 4),
      .bind [⟨⟨"u", 14⟩, ints [4]⟩] fill (.yield [.var ⟨"u", 14⟩])⟩⟩

/-- The only index, `t`, is not given away. -/
theorem separate_filled : Exp.Separate ([filled].flatMap fun s => s.exp.parts) := by
  constructor <;> decide

/-- No two names that these maps and the loop bind agree. -/
theorem distinct_filled : attempt.Distinct nesting targets [filled] := by
  constructor <;> decide +kernel

end Updates

/-- For this loop `x` is consumed and free, and both levels keep the parameters that are consumed
and drop the others. -/
theorem Selection.consumed_kept_filled :
    Exp.Separate ([Updates.filled].flatMap fun s => s.exp.parts) ∧
      ⟨"x", 10⟩ ∈ Stm.consumedAll [Updates.filled] ∧
      (∀ n ∈ Stm.consumedAll [Updates.filled], n ∈ Stm.freeAll [Updates.filled]) ∧
      ∃ targets' nest st', (Selection.ofStms Updates.targets [Updates.filled]).kernelNest
          Updates.nesting Updates.attempt = .ok (targets', nest) st' ∧
        nest.toList.map (fun l => l.inputs.map fun r => (r.param.name.base, r.param.ty.isUnique))
          = [[("xs", true)], [("x", true)]] ∧
        ∀ k e l, Updates.nesting.toList[k]? = some e → nest.toList[k]? = some l →
          ∀ r ∈ e.level.inputs, (r.param.name ∈ Stm.consumedAll [Updates.filled] ∨
            ∃ l' ∈ nest.toList.drop (k + 1), ∃ r' ∈ l'.inputs,
              r'.param.ty.isUnique ∧ r'.array = r.param.name) → r ∈ l.inputs := by
  have hruns : passes (fun r => decide (r.2.toList.map (fun l => l.inputs.map fun i =>
        (i.param.name.base, i.param.ty.isUnique)) = [[("xs", true)], [("x", true)]]))
      ((Selection.ofStms Updates.targets [Updates.filled]).kernelNest Updates.nesting
        Updates.attempt) = true := by
    decide +kernel
  obtain ⟨⟨targets', nest⟩, st', h, htest⟩ := exists_of_passes hruns
  have hkept := Selection.consumed_kept Updates.separate_filled
  refine ⟨Updates.separate_filled, by decide, hkept.1, targets', nest, st', h,
    of_decide_eq_true htest, ?_⟩
  intro k e l hk hl r hr hconsumed
  refine ((hkept.2 _).2 _ _ _ _ _ h k e l hk hl r hr hconsumed).resolve_right fun hnot => ?_
  exact hnot.1 Updates.distinct_filled

end MapNest
