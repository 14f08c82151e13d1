import MapNest.Analysis.Free
import MapNest.Nest.Level

/-!
# `MapNest.Proofs.Analysis.Free`: free names, one binding construct at a time

Membership in the free names of loops, functions, kernels, levels and statements, in terms of the
parts they are made of, and likewise in the names that are bound anywhere inside.
-/

set_option autoImplicit false

namespace MapNest

/-- A value is known where the names of a set are not: it is no name of the set. -/
def Operand.Known (bound : NameSet) : Operand → Prop
  | .const _ => True
  | .var n => n ∉ bound

instance Operand.decidableKnown (bound : NameSet) : ∀ v : Operand, Decidable (v.Known bound)
  | .const _ => inferInstanceAs (Decidable True)
  | .var n => inferInstanceAs (Decidable (n ∉ bound))

/-- An operand is known if it is no name bound in the nest. Constants are always known. -/
theorem Operand.known_iff {bound : NameSet} {v : Operand} :
    v.Known bound ↔ ∀ n, v = .var n → n ∉ bound := by
  cases v with
  | const c => simp [Known]
  | var n => simp [Known]

/-- The names of the carried values. -/
def Loop.names (l : Loop) : List Name := l.merge.map (·.param.name)

/-- The names of the carried values, read off the parameters. -/
theorem Loop.names_params {l : Loop} : Pattern.names (l.merge.map (·.param)) = l.names := by
  rw [Pattern.names, List.map_map]
  rfl

/-- A name is free in a loop if the body or the type of a carried value has it free and the loop
does not bind it, or if an initial value or the bound is that name. These two stand outside. -/
theorem Loop.mem_free {l : Loop} {n : Name} :
    n ∈ l.free ↔
      ((n ∈ l.body.free ∨ n ∈ Pattern.dimNames (l.merge.map (·.param))) ∧
        n ∉ Pattern.names l.form.binders ∧ n ∉ l.names) ∨
      (∃ m ∈ l.merge, m.init = .var n) ∨ .var n ∈ l.form.bounds := by
  obtain ⟨ret, merge, form, body⟩ := l
  simp only [Loop.free, Loop.names, NameSet.mem_union, NameSet.mem_sdiff, NameSet.mem_ofList,
    List.mem_append, Operand.mem_names, List.mem_map, not_or, Pattern.names, List.map_map,
    Function.comp_def]

/-- A loop binds its carried values, its index and what its body binds. -/
theorem Loop.mem_names_binders {l : Loop} {n : Name} :
    n ∈ Pattern.names l.binders ↔
      n ∈ l.names ∨ n ∈ Pattern.names l.form.binders ∨ n ∈ Pattern.names l.body.binders := by
  rw [← names_params]
  obtain ⟨ret, merge, form, body⟩ := l
  rw [binders, Pattern.names_append, Pattern.names_append, List.mem_append, List.mem_append,
    or_assoc]

/-- A name is free in a function if its body, the type of a parameter or that of a result has it
free, and the function does not bind it. -/
theorem Lambda.mem_free {f : Lambda} {n : Name} :
    n ∈ f.free ↔ (n ∈ f.body.free ∨ n ∈ Pattern.dimNames f.params ∨
      n ∈ f.returns.flatMap Ty.dimNames) ∧ n ≠ f.index ∧ n ∉ Pattern.names f.params := by
  obtain ⟨index, params, body, returns⟩ := f
  simp only [Lambda.free, NameSet.mem_sdiff, NameSet.mem_union, NameSet.mem_ofList,
    List.mem_append, List.mem_cons, not_or, ne_eq]

/-- A function binds its index, its parameters and what its body binds. -/
theorem Lambda.mem_names_binders {f : Lambda} {n : Name} :
    n ∈ Pattern.names f.binders ↔
      n = f.index ∨ n ∈ Pattern.names f.params ∨ n ∈ Pattern.names f.body.binders := by
  obtain ⟨index, params, body, returns⟩ := f
  rw [binders, Pattern.names_append, List.mem_append, Pattern.names, List.map_cons, List.mem_cons,
    or_assoc]
  rfl

/-- The names that a kernel binds for its body. -/
def Kernel.names (k : Kernel) : List Name :=
  k.thread :: k.space.map (·.index) ++ k.inputs.map (·.param.name)

/-- The kernel mentions a name outside its body, but for the indices at which it reads arrays. -/
def Kernel.Mentions (k : Kernel) (n : Name) : Prop :=
  n ∈ k.checks ∨ k.width = .var n ∨ (∃ a ∈ k.space, a.size = .var n) ∨
    (∃ i ∈ k.inputs, i.array = n ∨ .var n ∈ i.param.ty.dims) ∨ ∃ o ∈ k.returns, .var n ∈ o.ty.dims

/-- The sizes in the types of a kernel's parameters and results, and the sizes of its space, are
known where the names of a set are not. -/
structure Kernel.Regular (bound : NameSet) (k : Kernel) : Prop where
  inputs : ∀ i ∈ k.inputs, ∀ n, .var n ∈ i.param.ty.dims → n ∉ bound
  returns : ∀ o ∈ k.returns, ∀ n, .var n ∈ o.ty.dims → n ∉ bound
  space : ∀ a ∈ k.space, ∀ n, a.size = .var n → n ∉ bound

/-- A name is free in a kernel if its body has it free, or the kernel mentions it or reads at it,
and the kernel does not bind it. -/
theorem Kernel.mem_free {k : Kernel} {n : Name} :
    n ∈ k.free ↔ (n ∈ k.body.free ∨ k.Mentions n ∨ ∃ i ∈ k.inputs, .var n ∈ i.indices) ∧
      n ∉ k.names := by
  obtain ⟨checks, width, thread, space, inputs, returns, body⟩ := k
  simp only [Kernel.free, Kernel.names, Kernel.Mentions, NameSet.mem_sdiff, NameSet.mem_union,
    NameSet.mem_ofList, List.mem_append, Operand.mem_names, List.mem_cons, List.mem_map,
    List.mem_flatMap, Pattern.mem_names, Pattern.mem_dimNames, Ty.mem_dimNames, List.cons_append]
  grind

/-- A kernel binds its own names and what its body binds. -/
theorem Kernel.mem_names_binders {k : Kernel} {n : Name} :
    n ∈ Pattern.names k.binders ↔ n ∈ k.names ∨ n ∈ Pattern.names k.body.binders := by
  obtain ⟨checks, width, thread, space, inputs, returns, body⟩ := k
  simp only [binders, Pattern.names, names, List.map_append, List.map_cons, List.map_map,
    List.mem_append]
  rfl

/-- The level mentions a name: as its width, among its checks, as a size, or as an array. -/
def Level.Mentions (l : Level) (n : Name) : Prop :=
  l.width = .var n ∨ n ∈ l.checks ∨ (∃ i ∈ l.inputs, .var n ∈ i.param.ty.dims) ∨
    ∃ i ∈ l.inputs, i.array = n

/-- A level is free of what it mentions and does not bind. -/
theorem Level.mem_free_iff_mentions {l : Level} {n : Name} :
    n ∈ l.free ↔ l.Mentions n ∧ n ∉ l.bound :=
  Level.mem_free

/-- What a level mentions it binds, or it is free. -/
theorem Level.Mentions.mem_bound_or_free {l : Level} {n : Name} (h : l.Mentions n) :
    n ∈ l.bound ∨ n ∈ l.free := by
  by_cases hbound : n ∈ l.bound
  · exact Or.inl hbound
  · exact Or.inr (Level.mem_free_iff_mentions.2 ⟨h, hbound⟩)

/-- A level mentions its width. -/
theorem Level.mentions_width {l : Level} {n : Name} (h : l.width = .var n) : l.Mentions n :=
  Or.inl h

/-- A level mentions its checks. -/
theorem Level.mentions_check {l : Level} {n : Name} (h : n ∈ l.checks) : l.Mentions n :=
  Or.inr (Or.inl h)

/-- A level mentions the sizes in the types of its parameters. -/
theorem Level.mentions_dim {l : Level} {r : RowInput} (hr : r ∈ l.inputs) {n : Name}
    (h : .var n ∈ r.param.ty.dims) : l.Mentions n :=
  Or.inr (Or.inr (Or.inl ⟨r, hr, h⟩))

/-- A level mentions the arrays that it reads. -/
theorem Level.mentions_array {l : Level} {r : RowInput} (hr : r ∈ l.inputs) : l.Mentions r.array :=
  Or.inr (Or.inr (Or.inr ⟨r, hr, rfl⟩))

namespace Stm

variable {xs ys : List Stm} {n : Name}

/-- The names that some statements bind are those of their patterns. -/
theorem mem_patternNames : n ∈ patternNames xs ↔ ∃ s ∈ xs, ∃ b ∈ s.pattern, b.name = n := by
  simp [patternNames]

/-- A statement is free of what its expression and the types in its pattern are free of. -/
theorem mem_free {s : Stm} : n ∈ s.free ↔ n ∈ s.exp.free ∨ n ∈ Pattern.dimNames s.pattern := by
  rw [free, NameSet.mem_union, NameSet.mem_ofList]

/-- A replication mentions the number of copies, the value and the sizes of its type. -/
theorem mem_free_replicate {b : Binder} {count v : Operand} :
    n ∈ (Stm.replicate b count v).free ↔ count = .var n ∨ v = .var n ∨ .var n ∈ b.ty.dims := by
  rw [mem_free]
  show n ∈ NameSet.ofList (Operand.names [count, v]) ∨ n ∈ Pattern.dimNames [b] ↔ _
  rw [NameSet.mem_ofList, Operand.mem_names, List.mem_cons, List.mem_singleton,
    Pattern.mem_dimNames, or_assoc, eq_comm, eq_comm (b := v)]
  simp only [List.mem_singleton, exists_eq_left]

/-- What is free in some statements is free in one of them. -/
theorem exists_of_mem_freeAll (h : n ∈ freeAll xs) : ∃ s ∈ xs, n ∈ s.free := by
  induction xs with
  | nil => exact absurd h NameSet.not_mem_empty
  | cons s xs ih =>
    rw [freeAll, NameSet.mem_union, NameSet.mem_sdiff] at h
    rcases h with h | ⟨h, -⟩
    · exact ⟨s, List.mem_cons_self .., h⟩
    · obtain ⟨s', hs', hn⟩ := ih h
      exact ⟨s', List.mem_cons_of_mem _ hs', hn⟩

/-- What is free in a statement, and bound by none of those around it, is free in all of them
together. -/
theorem mem_freeAll_of_mem {s : Stm} (hs : s ∈ xs) (hn : n ∈ s.free)
    (hbound : n ∉ patternNames xs) : n ∈ freeAll xs := by
  -- No statement in front binds the name, so it stays free all the way to the front.
  induction xs with
  | nil => cases hs
  | cons s' xs ih =>
    rw [patternNames, List.flatMap_cons, List.mem_append, not_or] at hbound
    rw [freeAll, NameSet.mem_union, NameSet.mem_sdiff, NameSet.mem_ofList]
    rcases List.mem_cons.1 hs with rfl | hs
    · exact Or.inl hn
    · exact Or.inr ⟨ih hs hbound.2, hbound.1⟩

/-- Statements take away from those after them what they bind. -/
theorem mem_freeAll_append :
    n ∈ freeAll (xs ++ ys) ↔ n ∈ freeAll xs ∨ (n ∈ freeAll ys ∧ n ∉ patternNames xs) := by
  induction xs with
  | nil =>
    simp only [List.nil_append, freeAll, patternNames, List.flatMap_nil, List.not_mem_nil,
      not_false_eq_true, and_true, NameSet.not_mem_empty, false_or]
  | cons s xs ih =>
    simp only [List.cons_append, freeAll, NameSet.mem_union, NameSet.mem_sdiff, ih,
      NameSet.mem_ofList, patternNames, List.flatMap_cons, List.mem_append, not_or]
    constructor
    · rintro (h | ⟨h | ⟨h, hxs⟩, hs⟩)
      · exact Or.inl (Or.inl h)
      · exact Or.inl (Or.inr ⟨h, hs⟩)
      · exact Or.inr ⟨h, hs, hxs⟩
    · rintro ((h | ⟨h, hs⟩) | ⟨h, hs, hxs⟩)
      · exact Or.inl h
      · exact Or.inr ⟨Or.inl h, hs⟩
      · exact Or.inr ⟨Or.inr ⟨h, hxs⟩, hs⟩

/-- The free names of one statement. -/
theorem mem_freeAll_singleton {s : Stm} : n ∈ freeAll [s] ↔ n ∈ s.free := by
  rw [freeAll, freeAll, NameSet.mem_union, NameSet.mem_sdiff]
  exact or_iff_left fun h => NameSet.not_mem_empty h.1

/-- If some statements bind no name of a set, then they and those after them mention no name of it
just if none of them does, and neither do those after them. -/
theorem forall_freeAll_append_iff {bound : NameSet} (h : ∀ n ∈ patternNames xs, n ∉ bound) :
    (∀ n ∈ freeAll (xs ++ ys), n ∉ bound) ↔
      (∀ s ∈ xs, ∀ n ∈ s.free, n ∉ bound) ∧ ∀ n ∈ freeAll ys, n ∉ bound := by
  constructor
  · intro hall
    constructor
    · intro s hs n hn hbound
      refine hall n (mem_freeAll_append.2 (Or.inl ?_)) hbound
      exact mem_freeAll_of_mem hs hn fun hname => h n hname hbound
    · intro n hn hbound
      exact hall n (mem_freeAll_append.2 (Or.inr ⟨hn, fun hname => h n hname hbound⟩)) hbound
  · rintro ⟨hxs, hys⟩ n hn
    rcases mem_freeAll_append.1 hn with hn | ⟨hn, -⟩
    · obtain ⟨s, hs, hn⟩ := exists_of_mem_freeAll hn
      exact hxs s hs n hn
    · exact hys n hn

end Stm

end MapNest
