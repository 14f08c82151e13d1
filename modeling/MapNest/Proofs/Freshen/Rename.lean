import Mathlib.Data.Set.Function
import MapNest.Proofs.Freshen.Binds

/-!
# `MapNest.Proofs.Freshen.Rename`: one substitution for a whole expression

`Exp.subst` replaces every name of an expression, those that are bound and those that are mentioned,
by what one substitution has for it. It knows of no scopes. If the substitution keeps names apart
that occur in the expression, scopes take care of themselves: the free names of the result are what
the free names of the expression are replaced by (`Exp.images_free`).
-/

set_option autoImplicit false

namespace MapNest

/-! ### Replacing every name -/

/-- Replaces a name and the names in its type. -/
def Binder.subst (σ : Subst) (b : Binder) : Binder := ⟨b.name.subst σ, b.ty.subst σ⟩

/-- Replaces every name of a pattern. -/
def Pattern.subst (σ : Subst) (p : Pattern) : Pattern := p.map (Binder.subst σ)

/-- Replaces a carried value's name, those in its type and that in its initial value. -/
def Merge.subst (σ : Subst) (m : Merge) : Merge := ⟨m.param.subst σ, m.init.subst σ⟩

/-- Replaces the index of a loop and the name in its bound, or the condition. -/
def LoopForm.subst (σ : Subst) : LoopForm → LoopForm
  | forBelow index bound => .forBelow (index.subst σ) (bound.subst σ)
  | whileTrue cond => .whileTrue (cond.subst σ)

/-- Replaces the index of a dimension and the name in its size. -/
def Axis.subst (σ : Subst) (a : Axis) : Axis := ⟨a.index.subst σ, a.size.subst σ⟩

/-- Replaces every name of a kernel's parameter. -/
def KernelInput.subst (σ : Subst) (i : KernelInput) : KernelInput :=
  ⟨i.param.subst σ, i.array.subst σ, i.indices.map (Operand.subst σ)⟩

/-- Replaces the names in the type of a kernel's result. -/
def KernelOutput.subst (σ : Subst) (o : KernelOutput) : KernelOutput :=
  { o with ty := o.ty.subst σ }

mutual

/-- Replaces every name of an expression. -/
def Exp.subst (σ : Subst) : Exp → Exp
  | .op o => .op (o.subst σ)
  | .update checks source indices value =>
    .update (checks.map (Name.subst σ)) (source.subst σ) (indices.map (Operand.subst σ))
      (value.subst σ)
  | .loop l => .loop (l.subst σ)
  | .map checks width function arrays =>
    .map (checks.map (Name.subst σ)) (width.subst σ) (function.subst σ)
      (arrays.map (Name.subst σ))
  | .kernel k => .kernel (k.subst σ)

/-- Replaces every name of a loop. -/
def Loop.subst (σ : Subst) : Loop → Loop
  | ⟨ret, merge, form, body⟩ =>
    ⟨ret.map (Name.subst σ), merge.map (Merge.subst σ), form.subst σ, body.subst σ⟩

/-- Replaces every name of a function. -/
def Lambda.subst (σ : Subst) : Lambda → Lambda
  | ⟨index, params, body, returns⟩ =>
    ⟨index.subst σ, Pattern.subst σ params, body.subst σ, returns.map (Ty.subst σ)⟩

/-- Replaces every name of a kernel. -/
def Kernel.subst (σ : Subst) : Kernel → Kernel
  | ⟨checks, width, thread, space, inputs, returns, body⟩ =>
    ⟨checks.map (Name.subst σ), width.subst σ, thread.subst σ, space.map (Axis.subst σ),
      inputs.map (KernelInput.subst σ), returns.map (KernelOutput.subst σ), body.subst σ⟩

/-- Replaces every name of a body. -/
def Body.subst (σ : Subst) : Body → Body
  | .yield values => .yield (values.map (Operand.subst σ))
  | .bind pattern exp rest => .bind (Pattern.subst σ pattern) (exp.subst σ) (rest.subst σ)

end

section Lists

variable {σ : Subst}

/-- A replaced pattern binds the replaced names. -/
@[simp] theorem Pattern.names_subst {p : Pattern} :
    names (subst σ p) = (names p).map (Name.subst σ) := by
  simp [names, subst, Binder.subst]

/-- The types of a replaced pattern mention the replaced names. -/
@[simp] theorem Pattern.dimNames_subst {p : Pattern} :
    dimNames (subst σ p) = (dimNames p).map (Name.subst σ) := by
  simp [dimNames, subst, Binder.subst, Ty.dimNames_subst, List.flatMap_map, List.map_flatMap]

/-- The parameters of replaced carried values, seen as a pattern. -/
@[simp] theorem Merge.map_param_subst {l : List Merge} :
    (l.map (subst σ)).map (·.param) = Pattern.subst σ (l.map (·.param)) := by
  simp [subst, Pattern.subst]

/-- The parameters of replaced kernel inputs, seen as a pattern. -/
@[simp] theorem KernelInput.map_param_subst {l : List KernelInput} :
    (l.map (subst σ)).map (·.param) = Pattern.subst σ (l.map (·.param)) := by
  simp [subst, Pattern.subst]

end Lists

/-! ### Reading alike -/

section Congr

variable {σ τ : Subst}

/-- Substitutions that agree on some names replace them alike. -/
theorem Name.map_subst_congr {l : List Name} (h : ∀ n ∈ l, n.subst σ = n.subst τ) :
    l.map (Name.subst σ) = l.map (Name.subst τ) :=
  List.map_congr_left h

/-- Substitutions that agree on the name in an operand replace it alike. -/
theorem Operand.subst_congr {v : Operand} (h : ∀ n ∈ names [v], n.subst σ = n.subst τ) :
    v.subst σ = v.subst τ := by
  cases v with
  | const c => rfl
  | var n => rw [subst, subst, h n (by simp)]

/-- Substitutions that agree on the names in some operands replace them alike. -/
theorem Operand.map_subst_congr {l : List Operand} (h : ∀ n ∈ names l, n.subst σ = n.subst τ) :
    l.map (subst σ) = l.map (subst τ) := by
  refine List.map_congr_left fun v hv => subst_congr fun n hn => h n ?_
  rw [mem_names, List.mem_singleton] at hn
  exact mem_names.2 (hn ▸ hv)

/-- Substitutions that agree on the names in a type replace it alike. -/
theorem Ty.subst_congr {ty : Ty} (h : ∀ n ∈ ty.dimNames, n.subst σ = n.subst τ) :
    ty.subst σ = ty.subst τ := by
  cases ty with
  | scalar elem => rfl
  | array elem dims unique =>
    exact congrArg (array elem · unique) (Operand.map_subst_congr h)

/-- Substitutions that agree on the names in some types replace them alike. -/
theorem Ty.map_subst_congr {l : List Ty} (h : ∀ n ∈ l.flatMap dimNames, n.subst σ = n.subst τ) :
    l.map (subst σ) = l.map (subst τ) :=
  List.map_congr_left fun ty hty => subst_congr fun n hn => h n (List.mem_flatMap.2 ⟨ty, hty, hn⟩)

/-- Substitutions that agree on the sizes of new dimensions replace them alike. -/
theorem NewDim.map_subst_congr {l : List NewDim}
    (h : ∀ n ∈ Operand.names (l.map size), n.subst σ = n.subst τ) :
    l.map (subst σ) = l.map (subst τ) := by
  refine List.map_congr_left fun d hd => ?_
  have hsize : d.size.subst σ = d.size.subst τ := by
    refine Operand.subst_congr fun n hn => h n ?_
    rw [Operand.mem_names, List.mem_singleton] at hn
    exact Operand.mem_names.2 (hn ▸ List.mem_map_of_mem hd)
  cases d with
  | exact size => exact congrArg NewDim.exact hsize
  | coercion size => exact congrArg NewDim.coercion hsize

/-- Substitutions that agree on what an operation mentions replace it alike. -/
theorem Op.subst_congr {o : Op} (h : ∀ n ∈ o.mentions, n.subst σ = n.subst τ) :
    o.subst σ = o.subst τ := by
  cases o with
  | value v => rw [subst, subst, Operand.subst_congr h]
  | arith op ty left right =>
    have hpair := Operand.map_subst_congr (l := [left, right]) h
    simp only [List.map_cons, List.map_nil, List.cons.injEq, and_true] at hpair
    rw [subst, subst, hpair.1, hpair.2]
  | index checks array indices =>
    rw [mentions] at h
    rw [subst, subst, Name.map_subst_congr fun n hn => h n (List.mem_append_left _ hn),
      h array (List.mem_append_right _ (List.mem_cons_self ..)),
      Operand.map_subst_congr fun n hn => h n (by simp [Operand.mem_names.1 hn])]
  | iota count => rw [subst, subst, Operand.subst_congr h]
  | replicate count v =>
    have hpair := Operand.map_subst_congr (l := [count, v]) h
    simp only [List.map_cons, List.map_nil, List.cons.injEq, and_true] at hpair
    rw [subst, subst, hpair.1, hpair.2]
  | rearrange checks perm array =>
    rw [mentions] at h
    rw [subst, subst, Name.map_subst_congr fun n hn => h n (List.mem_append_left _ hn),
      h array (by simp)]
  | reshape checks shape array =>
    rw [mentions] at h
    rw [subst, subst,
      Name.map_subst_congr fun n hn => h n (List.mem_append_left _ (List.mem_append_left _ hn)),
      NewDim.map_subst_congr fun n hn => h n (List.mem_append_left _ (List.mem_append_right _ hn)),
      h array (by simp)]
  | copy array => rw [subst, subst, h array (List.mem_singleton_self _)]

end Congr

/-! ### Sets of names -/

/-- The names of one set are what a substitution has for those of another. -/
def Images (σ : Subst) (s s' : NameSet) : Prop := ∀ n, n ∈ s' ↔ ∃ m ∈ s, m.subst σ = n

namespace Images

variable {σ : Subst} {s s' t t' : NameSet}

/-- The images of listed names are listed. -/
theorem ofList (l : List Name) : Images σ (.ofList l) (.ofList (l.map (Name.subst σ))) := by
  intro n
  simp only [NameSet.mem_ofList, List.mem_map]

/-- The images of a union are those of its parts. For a difference, names have to be kept apart. -/
theorem union (h : Images σ s s') (h' : Images σ t t') : Images σ (s ∪ t) (s' ∪ t') := by
  intro n
  simp only [NameSet.mem_union, h n, h' n]
  constructor
  · rintro (⟨m, hm, rfl⟩ | ⟨m, hm, rfl⟩)
    · exact ⟨m, Or.inl hm, rfl⟩
    · exact ⟨m, Or.inr hm, rfl⟩
  · rintro ⟨m, hm | hm, rfl⟩
    · exact Or.inl ⟨m, hm, rfl⟩
    · exact Or.inr ⟨m, hm, rfl⟩

/-- Names that are kept apart are not lost when others are taken away. -/
theorem sdiff {u v : NameSet} {S : Set Name} (h : Images σ s u) (h' : Images σ t v)
    (hinj : Set.InjOn (Name.subst σ) S) (hs : ∀ n ∈ s \ t, n ∈ S) (ht : ∀ n ∈ t, n ∈ S) :
    Images σ (s \ t) (u \ v) := by
  intro n
  simp only [NameSet.mem_sdiff, h n, h' n]
  constructor
  · rintro ⟨⟨m, hm, rfl⟩, hnot⟩
    exact ⟨m, ⟨hm, fun hmem => hnot ⟨m, hmem, rfl⟩⟩, rfl⟩
  · rintro ⟨m, ⟨hm, hnot⟩, rfl⟩
    -- A name taken away with the same image would be the name itself.
    refine ⟨⟨m, hm, rfl⟩, ?_⟩
    rintro ⟨k, hk, heq⟩
    exact hnot (hinj (ht k hk) (hs m (NameSet.mem_sdiff.2 ⟨hm, hnot⟩)) heq ▸ hk)

end Images

/-! ### Free names -/

section Free

variable {σ : Subst} {S : Set Name}

/-- The case of a loop, given that of its body. -/
theorem Loop.images_of_body {l : Loop} (hbody : Images σ l.body.free (l.body.subst σ).free)
    (hinj : Set.InjOn (Name.subst σ) S) (hmentions : ∀ n ∈ l.mentions, n ∈ S)
    (hbinders : ∀ n ∈ Pattern.names l.binders, n ∈ S) : Images σ l.free (l.subst σ).free := by
  have hfree := fun n hn => hmentions n (mem_mentions_of_mem_free hn)
  obtain ⟨ret, merge, form, body⟩ := l
  have hown : Pattern.names (form.subst σ).binders ++ Pattern.names
        ((merge.map (Merge.subst σ)).map (·.param))
      = (Pattern.names form.binders ++ Pattern.names (merge.map (·.param))).map
          (Name.subst σ) := by
    rw [List.map_append, Merge.map_param_subst, Pattern.names_subst]
    cases form <;> rfl
  have houtside : Operand.names ((merge.map (Merge.subst σ)).map (·.init) ++ (form.subst σ).bounds)
      = (Operand.names (merge.map (·.init) ++ form.bounds)).map (Name.subst σ) := by
    rw [← Operand.names_map_subst, List.map_append, List.map_map, List.map_map]
    cases form <;> rfl
  rw [subst, free, free, hown, houtside, Merge.map_param_subst, Pattern.dimNames_subst]
  rw [free] at hfree
  rw [binders] at hbinders
  -- Initial values and the bound stand outside, so they are not taken away.
  refine ((hbody.union (.ofList _)).sdiff (.ofList _) hinj (fun n hn => hfree n ?_)
    fun n hn => hbinders n ?_).union (.ofList _)
  · exact NameSet.mem_union.2 (Or.inl hn)
  · rw [NameSet.mem_ofList, List.mem_append] at hn
    rw [Pattern.names_append, Pattern.names_append, List.mem_append, List.mem_append]
    exact Or.inl hn.symm

/-- The case of a function, given that of its body. -/
theorem Lambda.images_of_body {f : Lambda} (hbody : Images σ f.body.free (f.body.subst σ).free)
    (hinj : Set.InjOn (Name.subst σ) S) (hmentions : ∀ n ∈ f.mentions, n ∈ S)
    (hbinders : ∀ n ∈ Pattern.names f.binders, n ∈ S) : Images σ f.free (f.subst σ).free := by
  have hfree := fun n hn => hmentions n (mem_mentions_of_mem_free hn)
  obtain ⟨index, params, body, returns⟩ := f
  have hdims : Pattern.dimNames (Pattern.subst σ params) ++
        (returns.map (Ty.subst σ)).flatMap Ty.dimNames
      = (Pattern.dimNames params ++ returns.flatMap Ty.dimNames).map (Name.subst σ) := by
    simp [List.flatMap_map, List.map_flatMap, Ty.dimNames_subst]
  have hown : index.subst σ :: Pattern.names (Pattern.subst σ params)
      = (index :: Pattern.names params).map (Name.subst σ) := by simp
  rw [subst, free, free, hdims, hown]
  rw [free] at hfree
  rw [binders] at hbinders
  refine (hbody.union (.ofList _)).sdiff (.ofList _) hinj hfree fun n hn => hbinders n ?_
  rw [Pattern.names_append, List.mem_append]
  exact Or.inl (NameSet.mem_ofList.1 hn)

/-- The case of a kernel, given that of its body. -/
theorem Kernel.images_of_body {k : Kernel} (hbody : Images σ k.body.free (k.body.subst σ).free)
    (hinj : Set.InjOn (Name.subst σ) S) (hmentions : ∀ n ∈ k.mentions, n ∈ S)
    (hbinders : ∀ n ∈ Pattern.names k.binders, n ∈ S) : Images σ k.free (k.subst σ).free := by
  have hfree := fun n hn => hmentions n (mem_mentions_of_mem_free hn)
  obtain ⟨checks, width, thread, space, inputs, returns, body⟩ := k
  have houtside : checks.map (Name.subst σ) ++
        Operand.names (width.subst σ :: (space.map (Axis.subst σ)).map (·.size)) ++
        (inputs.map (KernelInput.subst σ)).map (·.array) ++
        Operand.names ((inputs.map (KernelInput.subst σ)).flatMap (·.indices)) ++
        Pattern.dimNames ((inputs.map (KernelInput.subst σ)).map (·.param)) ++
        (returns.map (KernelOutput.subst σ)).flatMap (·.ty.dimNames)
      = (checks ++ Operand.names (width :: space.map (·.size)) ++ inputs.map (·.array) ++
          Operand.names (inputs.flatMap (·.indices)) ++ Pattern.dimNames (inputs.map (·.param)) ++
          returns.flatMap (·.ty.dimNames)).map (Name.subst σ) := by
    -- Each list of names read outside is the one before under the substitution.
    have hsizes : width.subst σ :: (space.map (Axis.subst σ)).map (·.size)
        = (width :: space.map (·.size)).map (Operand.subst σ) := by simp [Axis.subst]
    have hindices : (inputs.map (KernelInput.subst σ)).flatMap (·.indices)
        = (inputs.flatMap (·.indices)).map (Operand.subst σ) := by
      simp [KernelInput.subst, List.flatMap_map, List.map_flatMap]
    rw [hsizes, hindices, Operand.names_map_subst, Operand.names_map_subst,
      KernelInput.map_param_subst, Pattern.dimNames_subst]
    simp [KernelInput.subst, KernelOutput.subst, List.flatMap_map, List.map_flatMap,
      Ty.dimNames_subst]
  have hown : thread.subst σ :: (space.map (Axis.subst σ)).map (·.index) ++
        Pattern.names ((inputs.map (KernelInput.subst σ)).map (·.param))
      = (thread :: space.map (·.index) ++ Pattern.names (inputs.map (·.param))).map
          (Name.subst σ) := by
    rw [KernelInput.map_param_subst, Pattern.names_subst]
    simp [Axis.subst]
  rw [subst, free, free, houtside, hown]
  rw [free] at hfree
  rw [binders] at hbinders
  refine (hbody.union (.ofList _)).sdiff (.ofList _) hinj hfree fun n hn => hbinders n ?_
  rw [Pattern.names_append, List.mem_append]
  refine Or.inl ?_
  simpa [Pattern.names] using hn

mutual

/-- If names are kept apart, the free names of an expression are replaced like all others. -/
theorem Exp.images_free (hinj : Set.InjOn (Name.subst σ) S) :
    ∀ {e : Exp}, (∀ n ∈ e.mentions, n ∈ S) → (∀ n ∈ Pattern.names e.binders, n ∈ S) →
      Images σ e.free (e.subst σ).free
  | .op o, _, _ => by
    rw [Exp.subst, Exp.free, Exp.free, Op.free, Op.free, Op.mentions_subst]
    exact .ofList _
  | .update checks source indices value, _, _ => by
    rw [Exp.subst, Exp.free, Exp.free, Operand.names_concat_subst, ← List.map_cons,
      ← List.map_append]
    exact .ofList _
  | .loop l, hmentions, hbinders => by
    simp only [Exp.subst, Exp.free, Exp.mentions, Exp.binders] at hmentions hbinders ⊢
    exact Loop.images_free hinj hmentions hbinders
  | .map checks width function arrays, hmentions, hbinders => by
    rw [Exp.mentions] at hmentions
    rw [Exp.binders] at hbinders
    rw [Exp.subst, Exp.free, Exp.free, Operand.names_singleton_subst, ← List.map_append,
      ← List.map_append]
    exact (Lambda.images_free hinj (fun n hn => hmentions n (List.mem_append_right _ hn))
      hbinders).union (.ofList _)
  | .kernel k, hmentions, hbinders => by
    simp only [Exp.subst, Exp.free, Exp.mentions, Exp.binders] at hmentions hbinders ⊢
    exact Kernel.images_free hinj hmentions hbinders

/-- The free names of a replaced loop are the replaced free names. -/
theorem Loop.images_free (hinj : Set.InjOn (Name.subst σ) S) :
    ∀ {l : Loop}, (∀ n ∈ l.mentions, n ∈ S) → (∀ n ∈ Pattern.names l.binders, n ∈ S) →
      Images σ l.free (l.subst σ).free
  | ⟨ret, merge, form, body⟩, hmentions, hbinders => by
    refine Loop.images_of_body (Body.images_free hinj ?_ ?_) hinj hmentions hbinders
    · exact fun n hn => hmentions n (by simp [Loop.mentions, hn])
    · refine fun n hn => hbinders n ?_
      rw [Loop.binders, Pattern.names_append]
      exact List.mem_append_right _ hn

/-- The free names of a replaced function are the replaced free names. -/
theorem Lambda.images_free (hinj : Set.InjOn (Name.subst σ) S) :
    ∀ {f : Lambda}, (∀ n ∈ f.mentions, n ∈ S) → (∀ n ∈ Pattern.names f.binders, n ∈ S) →
      Images σ f.free (f.subst σ).free
  | ⟨index, params, body, returns⟩, hmentions, hbinders => by
    refine Lambda.images_of_body (Body.images_free hinj ?_ ?_) hinj hmentions hbinders
    · exact fun n hn => hmentions n (by simp [Lambda.mentions, hn])
    · refine fun n hn => hbinders n ?_
      rw [Lambda.binders, Pattern.names_append]
      exact List.mem_append_right _ hn

/-- The free names of a replaced kernel are the replaced free names. -/
theorem Kernel.images_free (hinj : Set.InjOn (Name.subst σ) S) :
    ∀ {k : Kernel}, (∀ n ∈ k.mentions, n ∈ S) → (∀ n ∈ Pattern.names k.binders, n ∈ S) →
      Images σ k.free (k.subst σ).free
  | ⟨checks, width, thread, space, inputs, returns, body⟩, hmentions, hbinders => by
    refine Kernel.images_of_body (Body.images_free hinj ?_ ?_) hinj hmentions hbinders
    · exact fun n hn => hmentions n (by simp [Kernel.mentions, hn])
    · refine fun n hn => hbinders n ?_
      rw [Kernel.binders, Pattern.names_append]
      exact List.mem_append_right _ hn

/-- The free names of a replaced body are the replaced free names. -/
theorem Body.images_free (hinj : Set.InjOn (Name.subst σ) S) :
    ∀ {b : Body}, (∀ n ∈ b.mentions, n ∈ S) → (∀ n ∈ Pattern.names b.binders, n ∈ S) →
      Images σ b.free (b.subst σ).free
  | .yield values, _, _ => by
    rw [Body.subst, Body.free, Body.free, Operand.names_map_subst]
    exact .ofList _
  | .bind pattern exp rest, hmentions, hbinders => by
    rw [Body.mentions] at hmentions
    rw [Body.binders, Pattern.names_append, Pattern.names_append] at hbinders
    rw [Body.subst, Body.free, Body.free, Pattern.dimNames_subst, Pattern.names_subst]
    have hexp := Exp.images_free (e := exp) hinj
      (fun n hn => hmentions n (by simp [hn])) (fun n hn => hbinders n (by simp [hn]))
    have hrest := Body.images_free (b := rest) hinj
      (fun n hn => hmentions n (List.mem_append_right _ hn))
      (fun n hn => hbinders n (List.mem_append_right _ hn))
    refine (hexp.union (.ofList _)).union (hrest.sdiff (.ofList _) hinj (fun n hn => ?_)
      fun n hn => hbinders n ?_)
    · exact hmentions n (List.mem_append_right _
        (Body.mem_mentions_of_mem_free (NameSet.mem_sdiff.1 hn).1))
    · exact List.mem_append_left _ (List.mem_append_left _ (NameSet.mem_ofList.1 hn))

end

end Free

end MapNest
