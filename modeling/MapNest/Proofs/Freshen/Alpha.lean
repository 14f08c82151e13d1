import Mathlib.Data.List.Nodup
import MapNest.Proofs.Freshen.Draws
import MapNest.Proofs.Freshen.Rename

/-!
# `MapNest.Proofs.Freshen.Alpha`: the same statement with other names

A walk that gives fresh names keeps one list of replacements, applies it as it stands, and never
takes one back. That this renames a statement consistently rests on how names are used. If the
expression binds every name once and mentions it in its scope only (`Exp.InScope`), then all that is
read at some time on the walk is read in the end as well, and the result is the expression under the
replacements of the end (`Stm.freshen_renames`).

`InScope hidden` carries the names that may not be mentioned yet, or not any more. The set begins
with all names bound inside and loses those whose scope is entered. `Fits` is the invariant of the
walk: the final substitution has the last word on everything that may be mentioned. `Fits.enter` and
`Fits.leave` move it past some binders, in their scope and out of it.

Renamed consistently, a statement is free of what it was free of, with one proviso
(`Exp.ShapesKnown`): the type of a binder may mention a name of the same pattern, and a return type
one bound in the body, and such a mention counts as free although the name is bound.
-/

set_option autoImplicit false

namespace MapNest

/-! ### Scopes -/

/-- Names are bound one after the other, each along with some mentions. None of these is hidden. -/
def InOrder (hidden : NameSet) : List (List Name × Name) → Prop
  | [] => True
  | (mentions, n) :: rest => (∀ m ∈ mentions, m ∉ hidden) ∧ InOrder (hidden \ {n}) rest

/-- The sizes in a binder's type, and the name that it binds. -/
def Binder.step (b : Binder) : List Name × Name := (b.ty.dimNames, b.name)

/-- The size of a dimension, and its index. -/
def Axis.step (a : Axis) : List Name × Name := (Operand.names [a.size], a.index)

/-- What a kernel's parameter mentions inside the kernel, and the name that it binds. -/
def KernelInput.step (i : KernelInput) : List Name × Name :=
  (Operand.names i.indices ++ i.param.ty.dimNames, i.param.name)

mutual

/-- No hidden name is mentioned, and what is bound inside is mentioned in its scope. -/
def Exp.InScope (hidden : NameSet) : Exp → Prop
  | .op o => ∀ n ∈ o.mentions, n ∉ hidden
  | .update checks source indices value =>
    ∀ n ∈ checks ++ source :: Operand.names (indices ++ [value]), n ∉ hidden
  | .loop l => l.InScope hidden
  | .map checks width function arrays =>
    (∀ n ∈ checks ++ Operand.names [width] ++ arrays, n ∉ hidden) ∧ function.InScope hidden
  | .kernel k => k.InScope hidden

/-- Initial values and the bound stand outside a loop, and the values that it returns inside. -/
def Loop.InScope (hidden : NameSet) : Loop → Prop
  | ⟨ret, merge, form, body⟩ =>
    let carried := hidden \ .ofList (Pattern.names (merge.map (·.param)))
    let inside := carried \ .ofList (Pattern.names form.binders)
    (∀ n ∈ Operand.names (merge.map (·.init) ++ form.bounds), n ∉ hidden) ∧
      InOrder hidden (merge.map fun m => m.param.step) ∧ (∀ n ∈ form.mentions, n ∉ carried) ∧
      (∀ n ∈ ret, n ∉ inside) ∧ body.InScope inside

/-- The types of a function's results may mention what its body binds. -/
def Lambda.InScope (hidden : NameSet) : Lambda → Prop
  | ⟨index, params, body, returns⟩ =>
    let inside := (hidden \ {index}) \ .ofList (Pattern.names params)
    InOrder (hidden \ {index}) (params.map Binder.step) ∧ body.InScope inside ∧
      ∀ n ∈ returns.flatMap Ty.dimNames, n ∉ inside \ .ofList (Pattern.names body.binders)

/-- The checks, the width and the arrays stand outside a kernel. The types of its results may
mention what its body binds. -/
def Kernel.InScope (hidden : NameSet) : Kernel → Prop
  | ⟨checks, width, thread, space, inputs, returns, body⟩ =>
    let points := (hidden \ .ofList (space.map (·.index))) \ {thread}
    let inside := points \ .ofList (inputs.map (·.param.name))
    (∀ n ∈ checks ++ Operand.names [width] ++ inputs.map (·.array), n ∉ hidden) ∧
      InOrder hidden (space.map Axis.step) ∧ InOrder points (inputs.map KernelInput.step) ∧
      body.InScope inside ∧
      ∀ n ∈ returns.flatMap (·.ty.dimNames), n ∉ inside \ .ofList (Pattern.names body.binders)

/-- A pattern is in scope in the rest of a body, and its types are read one after the other. -/
def Body.InScope (hidden : NameSet) : Body → Prop
  | .yield values => ∀ n ∈ Operand.names values, n ∉ hidden
  | .bind pattern exp rest =>
    exp.InScope hidden ∧ InOrder hidden (pattern.map Binder.step) ∧
      rest.InScope (hidden \ .ofList (Pattern.names pattern))

end

/-! ### The invariant of the walk -/

open Freshening

/-- A substitution fits a part of a walk that binds some names. It agrees with the replacements
before on all that may be mentioned, and with those after on all that is bound. -/
structure Fits (σ : Subst) (hidden : NameSet) (names : List Name) (st st' : Freshening) : Prop where
  nodup : names.Nodup
  bound : ∀ n ∈ names, n ∈ hidden
  before : ∀ n : Name, n ∉ hidden → n.subst σ = n.subst st.subst
  after : ∀ n ∈ names, n.subst σ = n.subst st'.subst

namespace Fits

variable {σ : Subst} {hidden : NameSet} {st s st' : Freshening} {xs xs' ys ys' : List Name}

/-- It fits the part up to some time. -/
theorem left (h : Fits σ hidden (xs ++ ys) st st') (hy : Binds s ys ys' st') :
    Fits σ hidden xs st s where
  nodup := (List.nodup_append.1 h.nodup).1
  bound n hn := h.bound n (List.mem_append_left _ hn)
  before := h.before
  after n hn := by
    rw [h.after n (List.mem_append_left _ hn)]
    exact hy.subst_of_not_mem fun hmem => (List.nodup_append.1 h.nodup).2.2 n hn n hmem rfl

/-- It fits the part from some time on, in the scope of what was bound before. -/
theorem enter (h : Fits σ hidden (xs ++ ys) st st') (hx : Binds st xs xs' s)
    (hy : Binds s ys ys' st') : Fits σ (hidden \ .ofList xs) ys s st' where
  nodup := (List.nodup_append.1 h.nodup).2.1
  bound n hn := by
    rw [NameSet.mem_sdiff, NameSet.mem_ofList]
    refine ⟨h.bound n (List.mem_append_right _ hn), fun hmem => ?_⟩
    exact (List.nodup_append.1 h.nodup).2.2 n hmem n hn rfl
  before n hn := by
    by_cases hmem : n ∈ xs
    · exact (h.left hy).after n hmem
    · rw [NameSet.mem_sdiff, NameSet.mem_ofList, not_and, not_not] at hn
      rw [hx.subst_of_not_mem hmem]
      exact h.before n fun hhidden => hmem (hn hhidden)
  after n hn := h.after n (List.mem_append_right _ hn)

/-- It fits the part from some time on, out of the scope of what was bound before. -/
theorem leave (h : Fits σ hidden (xs ++ ys) st st') (hx : Binds st xs xs' s) :
    Fits σ hidden ys s st' where
  nodup := (List.nodup_append.1 h.nodup).2.1
  bound n hn := h.bound n (List.mem_append_right _ hn)
  before n hn := by
    rw [hx.subst_of_not_mem fun hmem => hn (h.bound n (List.mem_append_left _ hmem))]
    exact h.before n hn
  after n hn := h.after n (List.mem_append_right _ hn)

/-- The order in which the names are listed does not matter. -/
theorem perm (h : Fits σ hidden xs st st') (hperm : xs.Perm ys) : Fits σ hidden ys st st' where
  nodup := hperm.nodup_iff.1 h.nodup
  bound n hn := h.bound n (hperm.mem_iff.2 hn)
  before := h.before
  after n hn := h.after n (hperm.mem_iff.2 hn)

/-- What may be mentioned is read as in the end. -/
theorem read (h : Fits σ hidden xs st st') {ms : List Name} (hms : ∀ n ∈ ms, n ∉ hidden) :
    ∀ n ∈ ms, n.subst st.subst = n.subst σ :=
  fun n hn => (h.before n (hms n hn)).symm

/-- What is mentioned after all is bound, in the scope of all that, is read as in the end. -/
theorem end_read (h : Fits σ hidden xs st st') (hx : Binds st xs xs' st') {ms : List Name}
    (hms : ∀ n ∈ ms, n ∉ hidden \ .ofList xs) : ∀ n ∈ ms, n.subst st'.subst = n.subst σ := by
  have hxs : Fits σ hidden (xs ++ []) st st' := (List.append_nil xs).symm ▸ h
  exact (hxs.enter hx .refl).read hms

end Fits

variable {σ : Subst} {hidden : NameSet} {st st' : Freshening}

/-! ### Steps of the walk -/

/-- A list of one name makes a set of one name. -/
theorem NameSet.ofList_singleton {n : Name} : NameSet.ofList [n] = {n} :=
  NameSet.ext fun m => by simp

namespace FreshenM

/-- A name is replaced by what the final substitution has for it. -/
theorem replace_fits {n n' : Name} (h : replace n st = .ok n' st')
    (hfits : Fits σ hidden [n] st st') : n' = n.subst σ := by
  rw [hfits.after n (List.mem_singleton_self _)]
  obtain ⟨rfl, rfl⟩ := replace_eq_ok h
  simp [Name.subst]

/-- A binder whose type mentions nothing hidden becomes what the final substitution makes of it. -/
theorem binder_fits {b b' : Binder} (h : binder b st = .ok b' st')
    (hfits : Fits σ hidden [b.name] st st') (hms : ∀ n ∈ b.step.1, n ∉ hidden) :
    b' = b.subst σ := by
  obtain ⟨hreplace, hty⟩ := binder_eq_ok h
  exact Binder.ext (replace_fits hreplace hfits) (hty.trans (Ty.subst_congr (hfits.read hms)))

/-- A dimension whose size is not hidden becomes what the final substitution makes of it. -/
theorem axis_fits {a a' : Axis} (h : axis a st = .ok a' st')
    (hfits : Fits σ hidden [a.index] st st') (hms : ∀ n ∈ a.step.1, n ∉ hidden) :
    a' = a.subst σ := by
  obtain ⟨hreplace, hsize⟩ := axis_eq_ok h
  have hindex := replace_fits hreplace hfits
  have hsize := hsize.trans (Operand.subst_congr (hfits.read hms))
  obtain ⟨index', size'⟩ := a'
  exact congrArg₂ Axis.mk hindex hsize

/-- A kernel's parameter that mentions nothing hidden becomes what the final substitution makes of
it. Its array was read before. -/
theorem input_fits {i : KernelInput × Name} {i' : KernelInput} (h : input i st = .ok i' st')
    (hfits : Fits σ hidden [i.1.param.name] st st') (hms : ∀ n ∈ i.1.step.1, n ∉ hidden) :
    i' = ⟨i.1.param.subst σ, i.2, i.1.indices.map (Operand.subst σ)⟩ := by
  obtain ⟨hbinder, harray, hindices⟩ := input_eq_ok h
  have hparam := binder_fits hbinder hfits fun n hn => hms n (List.mem_append_right _ hn)
  have hindices := hindices.trans
    (Operand.map_subst_congr (hfits.read fun n hn => hms n (List.mem_append_left _ hn)))
  obtain ⟨param', array', indices'⟩ := i'
  cases harray
  rw [KernelInput.mk.injEq]
  exact ⟨hparam, rfl, hindices⟩

/-- A run of steps that bind a name each binds all of them. -/
theorem mapM_binds {α β : Type} {f : α → FreshenM β} {name : α → Name} {name' : β → Name}
    (hf : ∀ a b s s', f a s = .ok b s' → Binds s [name a] [name' b] s')
    {l : List α} {bs : List β} (h : (l.mapM f) st = .ok bs st') :
    Binds st (l.map name) (bs.map name') st' := by
  have hsteps : ∀ a b s s', f a s = .ok b s' → Renews s [name a] [name' b] [] [] s' :=
    fun a b s s' hb => ⟨hf a b s s' hb, by simp⟩
  exact (mapM_renews hsteps h).binds

/-- Steps over a list that bind a name each in the scope of those before replace all names by what
they are replaced by in the end. -/
theorem mapM_fits {α β : Type} {f : α → FreshenM β} {step : α → List Name × Name}
    {name' : β → Name} {g : α → β}
    (hbinds : ∀ a b s s', f a s = .ok b s' → Binds s [(step a).2] [name' b] s')
    (hf : ∀ a b s s' hidden, f a s = .ok b s' → Fits σ hidden [(step a).2] s s' →
      (∀ n ∈ (step a).1, n ∉ hidden) → b = g a)
    {l : List α} {bs : List β} (h : (l.mapM f) st = .ok bs st')
    (hfits : Fits σ hidden (l.map fun a => (step a).2) st st')
    (horder : InOrder hidden (l.map step)) : bs = l.map g := by
  induction l generalizing st hidden bs with
  | nil =>
    obtain ⟨rfl, -⟩ := mapM_nil_eq_ok_iff.1 h
    rfl
  | cons a l ih =>
    obtain ⟨b, s₁, rest, hb, hrest, rfl⟩ := mapM_cons_eq_ok_iff.1 h
    obtain ⟨hms, horder⟩ := horder
    -- The head is read as in the end, and the tail is in the scope of the head.
    have hafter := mapM_binds hbinds hrest
    have hfits : Fits σ hidden ([(step a).2] ++ l.map fun a => (step a).2) st st' := hfits
    have hhead := hf a b st s₁ hidden hb (hfits.left hafter) hms
    have hscope := hfits.enter (hbinds a b st s₁ hb) hafter
    rw [NameSet.ofList_singleton] at hscope
    rw [List.map_cons, hhead, ih hrest hscope horder]

/-- A pattern becomes what the final substitution makes of it, if each of its types may be read
where it stands. -/
theorem binders_fits {p p' : Pattern} (h : binders p st = .ok p' st')
    (hfits : Fits σ hidden (Pattern.names p) st st') (horder : InOrder hidden (p.map Binder.step)) :
    p' = Pattern.subst σ p :=
  mapM_fits (f := binder) (fun _ _ _ _ hb => replace_binds (binder_eq_ok hb).1)
    (fun _ _ _ _ _ hb hfits hms => binder_fits hb hfits hms) h hfits horder

/-- An iteration space binds its indices. -/
theorem axes_binds {space space' : List Axis} (h : space.mapM axis st = .ok space' st') :
    Binds st (space.map (·.index)) (space'.map (·.index)) st' :=
  mapM_binds (f := axis) (fun _ _ _ _ ha => replace_binds (axis_eq_ok ha).1) h

/-- An iteration space becomes what the final substitution makes of it. -/
theorem axes_fits {space space' : List Axis} (h : space.mapM axis st = .ok space' st')
    (hfits : Fits σ hidden (space.map (·.index)) st st')
    (horder : InOrder hidden (space.map Axis.step)) : space' = space.map (Axis.subst σ) :=
  mapM_fits (f := axis) (fun _ _ _ _ ha => replace_binds (axis_eq_ok ha).1)
    (fun _ _ _ _ _ ha hfits hms => axis_fits ha hfits hms) h hfits horder

/-- A kernel's parameter binds its name. -/
theorem input_binds {i : KernelInput × Name} {i' : KernelInput} (h : input i st = .ok i' st') :
    Binds st [i.1.param.name] [i'.param.name] st' :=
  replace_binds (binder_eq_ok (input_eq_ok h).1).1

/-- The parameters of a kernel bind their names. -/
theorem inputs_binds {inputs inputs' : List KernelInput} {τ : Subst}
    (h : (inputs.map fun i => (i, i.array.subst τ)).mapM input st = .ok inputs' st') :
    Binds st (inputs.map (·.param.name)) (inputs'.map (·.param.name)) st' := by
  have hbinds : Binds st ((inputs.map fun i => (i, i.array.subst τ)).map fun i => i.1.param.name)
      (inputs'.map (·.param.name)) st' := mapM_binds (fun _ _ _ _ hi => input_binds hi) h
  rwa [List.map_map] at hbinds

/-- A kernel's parameters are replaced if their arrays, which stand outside, were before. -/
theorem inputs_fits {inputs inputs' : List KernelInput}
    (h : (inputs.map fun i => (i, i.array.subst σ)).mapM input st = .ok inputs' st')
    (hfits : Fits σ hidden (inputs.map (·.param.name)) st st')
    (horder : InOrder hidden (inputs.map KernelInput.step)) :
    inputs' = inputs.map (KernelInput.subst σ) := by
  have hstep : ∀ (i : KernelInput × Name) i' s s', input i s = .ok i' s' →
      Binds s [i.1.step.2] [i'.param.name] s' := fun _ _ _ _ hi => input_binds hi
  have hall := mapM_fits hstep (fun _ _ _ _ _ hi hfits hms => input_fits hi hfits hms) h
    (by simpa [Function.comp_def, KernelInput.step] using hfits)
    (by simpa [Function.comp_def] using horder)
  rw [hall, List.map_map]
  rfl

/-- The index and the bound of a loop, or its condition, become what the final substitution makes of
them. -/
theorem form_fits {f f' : LoopForm} (h : form f st = .ok f' st')
    (hfits : Fits σ hidden (Pattern.names f.binders) st st') (hms : ∀ n ∈ f.mentions, n ∉ hidden) :
    f' = f.subst σ := by
  cases f with
  | forBelow index bound =>
    obtain ⟨n, hreplace, rfl⟩ := form_forBelow_eq_ok h
    rw [LoopForm.subst, replace_fits hreplace hfits, Operand.subst_congr (hfits.read hms)]
  | whileTrue cond =>
    obtain ⟨rfl, rfl⟩ := form_whileTrue_eq_ok h
    rw [LoopForm.subst, hfits.read hms cond (List.mem_singleton_self _)]

end FreshenM

/-! ### The whole walk -/

/-- The case of a loop, given that of its body. -/
theorem Loop.fits_of_body {l l' : Loop} (h : l.freshen st = .ok l' st') (hscope : l.InScope hidden)
    (hfits : Fits σ hidden (Pattern.names l.binders) st st')
    (hbody : ∀ s hidden, l.body.freshen s = .ok l'.body st' → l.body.InScope hidden →
      Fits σ hidden (Pattern.names l.body.binders) s st' → l'.body = l.body.subst σ) :
    l' = l.subst σ := by
  obtain ⟨params, s₁, s₂, hparams, hform, hrest, hret, hmerge⟩ := freshen_steps h
  have hparams_binds := (FreshenM.binders_renews hparams).binds
  have hform_binds := (FreshenM.form_renews hform).binds
  have hbody_binds := (Body.renews hrest).binds
  obtain ⟨ret, merge, form, body⟩ := l
  rw [binders, Pattern.names_append, Pattern.names_append, List.append_assoc] at hfits
  rw [InScope] at hscope
  obtain ⟨houtside, horder, hmentions, hreturned, hinside⟩ := hscope
  -- The carried values come into scope, then the index.
  have hfits_params := hfits.left (hform_binds.trans hbody_binds)
  have hfits_rest := hfits.enter hparams_binds (hform_binds.trans hbody_binds)
  have hfits_body := hfits_rest.enter hform_binds hbody_binds
  have hparams' : params = Pattern.subst σ (merge.map (·.param)) :=
    FreshenM.binders_fits hparams hfits_params (by simpa [Function.comp_def] using horder)
  have hinits : merge.map (·.init.subst st.subst) = merge.map (·.init.subst σ) := by
    have hread := Operand.map_subst_congr (l := merge.map (·.init))
      (hfits.read fun n hn => houtside n (by simp [Operand.mem_names.1 hn]))
    simpa [Function.comp_def] using hread
  have hmerge' : l'.merge = merge.map (Merge.subst σ) := by
    rw [hmerge, hparams', hinits]
    simp [Pattern.subst, List.zipWith_map, Merge.subst]
  have hret' := hret.trans (Name.map_subst_congr (hfits_body.read hreturned))
  have hform' := FreshenM.form_fits hform (hfits_rest.left hbody_binds) hmentions
  have hbody' := hbody s₂ _ hrest hinside hfits_body
  obtain ⟨ret', merge', form', body'⟩ := l'
  rw [subst, Loop.mk.injEq]
  exact ⟨hret', hmerge', hform', hbody'⟩

/-- The case of a function, given that of its body. -/
theorem Lambda.fits_of_body {f f' : Lambda} (h : f.freshen st = .ok f' st')
    (hscope : f.InScope hidden) (hfits : Fits σ hidden (Pattern.names f.binders) st st')
    (hbody : ∀ s hidden, f.body.freshen s = .ok f'.body st' → f.body.InScope hidden →
      Fits σ hidden (Pattern.names f.body.binders) s st' → f'.body = f.body.subst σ) :
    f' = f.subst σ := by
  obtain ⟨s₁, s₂, hindex, hparams, hrest, hreturns⟩ := Lambda.freshen_eq_ok h
  have hindex_binds := FreshenM.replace_binds hindex
  have hparams_binds := (FreshenM.binders_renews hparams).binds
  have hbody_binds := (Body.renews hrest).binds
  obtain ⟨index, params, body, returns⟩ := f
  have hfits : Fits σ hidden ([index] ++ (Pattern.names params ++ Pattern.names body.binders))
      st st' := by
    rw [binders] at hfits
    simpa [Pattern.names] using hfits
  rw [InScope] at hscope
  obtain ⟨horder, hinside, hreturned⟩ := hscope
  have hfits_index := hfits.left (hparams_binds.trans hbody_binds)
  have hfits_rest := hfits.enter hindex_binds (hparams_binds.trans hbody_binds)
  rw [NameSet.ofList_singleton] at hfits_rest
  have hfits_body := hfits_rest.enter hparams_binds hbody_binds
  have hindex' := FreshenM.replace_fits hindex hfits_index
  have hparams' := FreshenM.binders_fits hparams (hfits_rest.left hbody_binds) horder
  have hbody' := hbody s₂ _ hrest hinside hfits_body
  have hreturns' := hreturns.trans (Ty.map_subst_congr (hfits_body.end_read hbody_binds hreturned))
  obtain ⟨index', params', body', returns'⟩ := f'
  rw [subst, Lambda.mk.injEq]
  exact ⟨hindex', hparams', hbody', hreturns'⟩

/-- The case of a kernel, given that of its body. -/
theorem Kernel.fits_of_body {k k' : Kernel} (h : k.freshen st = .ok k' st')
    (hscope : k.InScope hidden) (hfits : Fits σ hidden (Pattern.names k.binders) st st')
    (hbody : ∀ s hidden, k.body.freshen s = .ok k'.body st' → k.body.InScope hidden →
      Fits σ hidden (Pattern.names k.body.binders) s st' → k'.body = k.body.subst σ) :
    k' = k.subst σ := by
  obtain ⟨s₁, s₂, s₃, hspace, hthread, hinputs, hrest, hchecks, hwidth, hreturns⟩ :=
    freshen_steps h
  have hspace_binds := FreshenM.axes_binds hspace
  have hthread_binds := FreshenM.replace_binds hthread
  have hinputs_binds := FreshenM.inputs_binds hinputs
  have hbody_binds := (Body.renews hrest).binds
  obtain ⟨checks, width, thread, space, inputs, returns, body⟩ := k
  -- The thread is listed before the space, but comes into scope after it.
  have hfits : Fits σ hidden (space.map (·.index) ++ ([thread] ++
      (inputs.map (·.param.name) ++ Pattern.names body.binders))) st st' := by
    refine hfits.perm ?_
    rw [binders]
    simpa [Pattern.names, Function.comp_def] using List.perm_middle.symm
  rw [InScope] at hscope
  obtain ⟨houtside, hsizes, hparams, hinside, hreturned⟩ := hscope
  have hfits_space := hfits.left (hthread_binds.trans (hinputs_binds.trans hbody_binds))
  have hfits_thread := hfits.enter hspace_binds
    (hthread_binds.trans (hinputs_binds.trans hbody_binds))
  have hfits_inputs := hfits_thread.enter hthread_binds (hinputs_binds.trans hbody_binds)
  rw [NameSet.ofList_singleton] at hfits_inputs
  have hfits_body := hfits_inputs.enter hinputs_binds hbody_binds
  -- What stands outside is read before anything is bound.
  have hread := hfits.read houtside
  have hchecks' := hchecks.trans (Name.map_subst_congr fun n hn =>
    hread n (List.mem_append_left _ (List.mem_append_left _ hn)))
  have hwidth' := hwidth.trans (Operand.subst_congr fun n hn =>
    hread n (List.mem_append_left _ (List.mem_append_right _ hn)))
  have hspace' := FreshenM.axes_fits hspace hfits_space hsizes
  have hthread' := FreshenM.replace_fits hthread
    (hfits_thread.left (hinputs_binds.trans hbody_binds))
  have hinputs' : k'.inputs = inputs.map (KernelInput.subst σ) := by
    have harrays : (inputs.map fun i => (i, i.array.subst st.subst))
        = inputs.map fun i => (i, i.array.subst σ) :=
      List.map_congr_left fun i hi => congrArg (i, ·)
        (hread _ (List.mem_append_right _ (List.mem_map_of_mem hi)))
    rw [harrays] at hinputs
    exact FreshenM.inputs_fits hinputs (hfits_inputs.left hbody_binds) hparams
  have hbody' := hbody s₃ _ hrest hinside hfits_body
  -- The types of the results are read last, when the body is out of scope.
  have hreturns' : k'.returns = returns.map (KernelOutput.subst σ) := by
    have htypes := hfits_body.end_read hbody_binds hreturned
    rw [hreturns]
    refine List.map_congr_left fun o ho => ?_
    rw [KernelOutput.subst, Ty.subst_congr fun n hn => htypes n (List.mem_flatMap.2 ⟨o, ho, hn⟩)]
  obtain ⟨checks', width', thread', space', inputs', returns', body'⟩ := k'
  rw [subst, Kernel.mk.injEq]
  exact ⟨hchecks', hwidth', hthread', hspace', hinputs', hreturns', hbody'⟩

mutual

/-- If every name is bound once and used in its scope, a walk through an expression replaces each
of its names by what it is replaced by in the end. -/
theorem Exp.fits : ∀ {e e' : Exp} {hidden : NameSet} {st st' : Freshening},
    e.freshen st = .ok e' st' → e.InScope hidden →
    Fits σ hidden (Pattern.names e.binders) st st' → e' = e.subst σ
  | .op o, e', hidden, st, st', h, hscope, hfits => by
    obtain ⟨rfl, rfl⟩ := Exp.op_freshen_eq_ok h
    rw [Exp.InScope] at hscope
    rw [Exp.subst, Op.subst_congr (hfits.read hscope)]
  | .update checks source indices value, e', hidden, st, st', h, hscope, hfits => by
    obtain ⟨rfl, rfl⟩ := Exp.update_freshen_eq_ok h
    rw [Exp.InScope] at hscope
    have hread := hfits.read hscope
    have hoperands := Operand.map_subst_congr (l := indices ++ [value]) fun n hn =>
      hread n (List.mem_append_right _ (List.mem_cons_of_mem _ hn))
    rw [List.map_append, List.map_append] at hoperands
    obtain ⟨hindices, hvalue⟩ := List.append_inj' hoperands rfl
    rw [Exp.subst, Name.map_subst_congr fun n hn => hread n (List.mem_append_left _ hn),
      hread source (List.mem_append_right _ (List.mem_cons_self ..)), hindices,
      List.singleton_inj.1 hvalue]
  | .loop l, e', hidden, st, st', h, hscope, hfits => by
    obtain ⟨l', hl, rfl⟩ := Exp.loop_freshen_eq_ok h
    rw [Exp.InScope] at hscope
    rw [Exp.binders] at hfits
    rw [Exp.subst, Loop.fits hl hscope hfits]
  | .map checks width function arrays, e', hidden, st, st', h, hscope, hfits => by
    obtain ⟨function', hfunction, rfl⟩ := Exp.map_freshen_eq_ok h
    rw [Exp.InScope] at hscope
    rw [Exp.binders] at hfits
    have hread := hfits.read hscope.1
    rw [Exp.subst, Lambda.fits hfunction hscope.2 hfits,
      Name.map_subst_congr fun n hn =>
        hread n (List.mem_append_left _ (List.mem_append_left _ hn)),
      Operand.subst_congr fun n hn =>
        hread n (List.mem_append_left _ (List.mem_append_right _ hn)),
      Name.map_subst_congr fun n hn => hread n (List.mem_append_right _ hn)]
  | .kernel k, e', hidden, st, st', h, hscope, hfits => by
    obtain ⟨k', hk, rfl⟩ := Exp.kernel_freshen_eq_ok h
    rw [Exp.InScope] at hscope
    rw [Exp.binders] at hfits
    rw [Exp.subst, Kernel.fits hk hscope hfits]

/-- A loop becomes what the final substitution makes of it. -/
theorem Loop.fits : ∀ {l l' : Loop} {hidden : NameSet} {st st' : Freshening},
    l.freshen st = .ok l' st' → l.InScope hidden →
    Fits σ hidden (Pattern.names l.binders) st st' → l' = l.subst σ
  | ⟨_, _, _, _⟩, _, _, _, _, h, hscope, hfits =>
    Loop.fits_of_body h hscope hfits fun _ _ => Body.fits

/-- A function becomes what the final substitution makes of it. -/
theorem Lambda.fits : ∀ {f f' : Lambda} {hidden : NameSet} {st st' : Freshening},
    f.freshen st = .ok f' st' → f.InScope hidden →
    Fits σ hidden (Pattern.names f.binders) st st' → f' = f.subst σ
  | ⟨_, _, _, _⟩, _, _, _, _, h, hscope, hfits =>
    Lambda.fits_of_body h hscope hfits fun _ _ => Body.fits

/-- A kernel becomes what the final substitution makes of it. -/
theorem Kernel.fits : ∀ {k k' : Kernel} {hidden : NameSet} {st st' : Freshening},
    k.freshen st = .ok k' st' → k.InScope hidden →
    Fits σ hidden (Pattern.names k.binders) st st' → k' = k.subst σ
  | ⟨_, _, _, _, _, _, _⟩, _, _, _, _, h, hscope, hfits =>
    Kernel.fits_of_body h hscope hfits fun _ _ => Body.fits

/-- A body becomes what the final substitution makes of it. -/
theorem Body.fits : ∀ {b b' : Body} {hidden : NameSet} {st st' : Freshening},
    b.freshen st = .ok b' st' → b.InScope hidden →
    Fits σ hidden (Pattern.names b.binders) st st' → b' = b.subst σ
  | .yield values, b', hidden, st, st', h, hscope, hfits => by
    obtain ⟨rfl, rfl⟩ := Body.yield_freshen_eq_ok h
    rw [Body.InScope] at hscope
    rw [Body.subst, Operand.map_subst_congr (hfits.read hscope)]
  | .bind pattern exp rest, b', hidden, st, st', h, hscope, hfits => by
    obtain ⟨exp', pattern', rest', s₁, s₂, hexp, hpattern, hrest, rfl⟩ := Body.bind_freshen_steps h
    have hexp_binds := (Exp.renews hexp).binds
    have hpattern_binds := (FreshenM.binders_renews hpattern).binds
    have hrest_binds := (Body.renews hrest).binds
    rw [Body.InScope] at hscope
    obtain ⟨hinside, horder, hscope⟩ := hscope
    -- What the expression binds goes out of scope again, and the pattern stays.
    have hfits : Fits σ hidden (Pattern.names exp.binders ++
        (Pattern.names pattern ++ Pattern.names rest.binders)) st st' := by
      rw [Body.binders, Pattern.names_append, Pattern.names_append] at hfits
      refine hfits.perm ?_
      rw [← List.append_assoc]
      exact List.perm_append_comm.append_right _
    have hfits_rest := hfits.leave hexp_binds
    rw [Body.subst, Exp.fits hexp hinside (hfits.left (hpattern_binds.trans hrest_binds)),
      FreshenM.binders_fits hpattern (hfits_rest.left hrest_binds) horder,
      Body.fits hrest hscope (hfits_rest.enter hpattern_binds hrest_binds)]

end

/-! ### Free names -/

mutual

/-- The sizes in types are known from outside: no type in a pattern mentions a name of that pattern,
and no type that a function or a kernel returns one that its body binds. -/
def Exp.ShapesKnown : Exp → Prop
  | .op _ => True
  | .update _ _ _ _ => True
  | .loop l => l.ShapesKnown
  | .map _ _ function _ => function.ShapesKnown
  | .kernel k => k.ShapesKnown

/-- The types of carried values may mention the values carried before them. -/
def Loop.ShapesKnown : Loop → Prop
  | ⟨_, _, _, body⟩ => body.ShapesKnown

/-- No type of a result mentions what the body binds. -/
def Lambda.ShapesKnown : Lambda → Prop
  | ⟨_, _, body, returns⟩ =>
    body.ShapesKnown ∧ ∀ n ∈ returns.flatMap Ty.dimNames, n ∉ Pattern.names body.binders

/-- No type of a result mentions what the body binds. -/
def Kernel.ShapesKnown : Kernel → Prop
  | ⟨_, _, _, _, _, returns, body⟩ =>
    body.ShapesKnown ∧ ∀ n ∈ returns.flatMap (·.ty.dimNames), n ∉ Pattern.names body.binders

/-- No type in a pattern mentions a name of the pattern. -/
def Body.ShapesKnown : Body → Prop
  | .yield _ => True
  | .bind pattern exp rest =>
    exp.ShapesKnown ∧ (∀ n ∈ Pattern.dimNames pattern, n ∉ Pattern.names pattern) ∧
      rest.ShapesKnown

end

/-- What is mentioned along with names bound one after the other is one of them or not hidden. -/
theorem InOrder.not_mem_hidden {α : Type} {f : α → List Name × Name} {n : Name} :
    ∀ {hidden : NameSet} {l : List α}, InOrder hidden (l.map f) → (∃ a ∈ l, n ∈ (f a).1) →
      n ∉ l.map (fun a => (f a).2) → n ∉ hidden
  | hidden, a :: l, ⟨hms, horder⟩, hmem, hnot => by
    rw [List.map_cons, List.mem_cons, not_or] at hnot
    rw [List.exists_mem_cons_iff] at hmem
    rcases hmem with hmem | hmem
    · exact hms n hmem
    · exact NameSet.not_mem_of_sdiff (horder.not_mem_hidden hmem hnot.2) (by simpa using hnot.1)

/-- What the types of a pattern mention, and the pattern does not bind, is not hidden. -/
theorem InOrder.dimNames_not_mem_hidden {n : Name} {hidden : NameSet} {p : Pattern}
    (h : InOrder hidden (p.map Binder.step)) (hn : n ∈ Pattern.dimNames p)
    (hnot : n ∉ Pattern.names p) : n ∉ hidden :=
  h.not_mem_hidden (List.mem_flatMap.1 hn) hnot

mutual

/-- With the sizes in types known, what is free in an expression may be mentioned. -/
theorem Exp.not_mem_hidden_of_mem_free {n : Name} : ∀ {e : Exp} {hidden : NameSet},
    e.InScope hidden → e.ShapesKnown → n ∈ e.free → n ∉ hidden
  | .op o, hidden, hscope, _, hn => by
    rw [Exp.InScope] at hscope
    exact hscope n (NameSet.mem_ofList.1 hn)
  | .update checks source indices value, hidden, hscope, _, hn => by
    rw [Exp.InScope] at hscope
    exact hscope n (NameSet.mem_ofList.1 hn)
  | .loop l, hidden, hscope, hknown, hn => by
    rw [Exp.InScope] at hscope
    rw [Exp.ShapesKnown] at hknown
    exact Loop.not_mem_hidden_of_mem_free hscope hknown hn
  | .map checks width function arrays, hidden, hscope, hknown, hn => by
    rw [Exp.InScope] at hscope
    rw [Exp.ShapesKnown] at hknown
    rw [Exp.free, NameSet.mem_union] at hn
    rcases hn with hn | hn
    · exact Lambda.not_mem_hidden_of_mem_free hscope.2 hknown hn
    · exact hscope.1 n (NameSet.mem_ofList.1 hn)
  | .kernel k, hidden, hscope, hknown, hn => by
    rw [Exp.InScope] at hscope
    rw [Exp.ShapesKnown] at hknown
    exact Kernel.not_mem_hidden_of_mem_free hscope hknown hn

/-- No free name of a loop is hidden. -/
theorem Loop.not_mem_hidden_of_mem_free {n : Name} : ∀ {l : Loop} {hidden : NameSet},
    l.InScope hidden → l.ShapesKnown → n ∈ l.free → n ∉ hidden
  | ⟨ret, merge, form, body⟩, hidden, hscope, hknown, hn => by
    obtain ⟨houtside, horder, -, -, hinside⟩ := hscope
    simp only [Loop.free, NameSet.mem_union, NameSet.mem_sdiff, NameSet.mem_ofList,
      List.mem_append, not_or] at hn
    rcases hn with ⟨hbody | hdims, hform, hparams⟩ | hn
    · exact NameSet.not_mem_of_sdiff (NameSet.not_mem_of_sdiff
        (Body.not_mem_hidden_of_mem_free hinside hknown hbody) hform) hparams
    · exact InOrder.dimNames_not_mem_hidden (by simpa [Function.comp_def] using horder) hdims
        hparams
    · exact houtside n (by simpa using hn)

/-- No free name of a function is hidden. -/
theorem Lambda.not_mem_hidden_of_mem_free {n : Name} : ∀ {f : Lambda} {hidden : NameSet},
    f.InScope hidden → f.ShapesKnown → n ∈ f.free → n ∉ hidden
  | ⟨index, params, body, returns⟩, hidden, hscope, hknown, hn => by
    obtain ⟨horder, hinside, hreturned⟩ := hscope
    simp only [Lambda.free, NameSet.mem_union, NameSet.mem_sdiff, NameSet.mem_ofList,
      List.mem_append, List.mem_cons, not_or] at hn
    obtain ⟨hn, hindex, hparams⟩ := hn
    -- Past the index, the parameters and the body, what may be mentioned is the same.
    have hleave_index (h : n ∉ hidden \ {index}) : n ∉ hidden :=
      NameSet.not_mem_of_sdiff h (by simpa using hindex)
    have hleave (h : n ∉ (hidden \ {index}) \ .ofList (Pattern.names params)) : n ∉ hidden :=
      hleave_index (NameSet.not_mem_of_sdiff h hparams)
    rcases hn with hbody | hdims | hdims
    · exact hleave (Body.not_mem_hidden_of_mem_free hinside hknown.1 hbody)
    · exact hleave_index (InOrder.dimNames_not_mem_hidden horder hdims hparams)
    · exact hleave (NameSet.not_mem_of_sdiff (hreturned n hdims) (hknown.2 n hdims))

/-- No free name of a kernel is hidden. -/
theorem Kernel.not_mem_hidden_of_mem_free {n : Name} : ∀ {k : Kernel} {hidden : NameSet},
    k.InScope hidden → k.ShapesKnown → n ∈ k.free → n ∉ hidden
  | ⟨checks, width, thread, space, inputs, returns, body⟩, hidden, hscope, hknown, hn => by
    obtain ⟨houtside, hsizes, hparams, hinside, hreturned⟩ := hscope
    simp only [Kernel.free, NameSet.mem_sdiff, NameSet.mem_union, NameSet.mem_ofList, Pattern.names,
      List.map_map, List.mem_append, List.mem_cons, not_or] at hn
    obtain ⟨hn, ⟨hthread, hspace⟩, hinputs⟩ := hn
    -- Past the space and the thread, and past the parameters, what may be mentioned is the same.
    have hleave_points (h : n ∉ (hidden \ .ofList (space.map (·.index))) \ {thread}) :
        n ∉ hidden :=
      NameSet.not_mem_of_sdiff (NameSet.not_mem_of_sdiff h (by simpa using hthread)) hspace
    rcases hn with hbody | ((((hchecks | hsize) | harray) | hindex) | hdims) | hdims
    · exact hleave_points (NameSet.not_mem_of_sdiff
        (Body.not_mem_hidden_of_mem_free hinside hknown.1 hbody) hinputs)
    · exact houtside n (List.mem_append_left _ (List.mem_append_left _ hchecks))
    · rw [Operand.mem_names, List.mem_cons] at hsize
      rcases hsize with hwidth | hsize
      · exact houtside n (by simp [hwidth])
      · obtain ⟨a, ha, hsize⟩ := List.mem_map.1 hsize
        exact hsizes.not_mem_hidden ⟨a, ha, by simp [Axis.step, hsize]⟩ hspace
    · exact houtside n (List.mem_append_right _ harray)
    · rw [Operand.mem_names, List.mem_flatMap] at hindex
      obtain ⟨i, hi, hindex⟩ := hindex
      exact hleave_points (hparams.not_mem_hidden
        ⟨i, hi, List.mem_append_left _ (Operand.mem_names.2 hindex)⟩ hinputs)
    · rw [Pattern.dimNames, List.flatMap_map, List.mem_flatMap] at hdims
      obtain ⟨i, hi, hdims⟩ := hdims
      exact hleave_points (hparams.not_mem_hidden ⟨i, hi, List.mem_append_right _ hdims⟩ hinputs)
    · exact hleave_points (NameSet.not_mem_of_sdiff
        (NameSet.not_mem_of_sdiff (hreturned n hdims) (hknown.2 n hdims)) hinputs)

/-- No free name of a body is hidden. -/
theorem Body.not_mem_hidden_of_mem_free {n : Name} : ∀ {b : Body} {hidden : NameSet},
    b.InScope hidden → b.ShapesKnown → n ∈ b.free → n ∉ hidden
  | .yield values, hidden, hscope, _, hn => by
    rw [Body.InScope] at hscope
    exact hscope n (NameSet.mem_ofList.1 hn)
  | .bind pattern exp rest, hidden, hscope, hknown, hn => by
    obtain ⟨hexp, horder, hrest⟩ := hscope
    obtain ⟨hexp_known, hpattern, hrest_known⟩ := hknown
    simp only [Body.free, NameSet.mem_union, NameSet.mem_sdiff, NameSet.mem_ofList] at hn
    rcases hn with (hn | hdims) | ⟨hn, hnot⟩
    · exact Exp.not_mem_hidden_of_mem_free hexp hexp_known hn
    · exact InOrder.dimNames_not_mem_hidden horder hdims (hpattern n hdims)
    · exact NameSet.not_mem_of_sdiff (Body.not_mem_hidden_of_mem_free hrest hrest_known hn) hnot

end

/-! ### Renaming a statement -/

/-- A substitution gives some names fresh ones: each is replaced by a name of the same base with a
tag from `next` to below `next'`. All other names stay, and names with tags below `next` are kept
apart. -/
structure Subst.GivesFresh (σ : Subst) (names : List Name) (next next' : Nat) : Prop where
  base : ∀ n ∈ names, (n.subst σ).base = n.base
  tag : ∀ n ∈ names, next ≤ (n.subst σ).tag ∧ (n.subst σ).tag < next'
  stays : ∀ n, n ∉ names → n.subst σ = n
  injOn : Set.InjOn (Name.subst σ) {n | n.tag < next}

/-- A walk that starts without replacements ends with some that give the names bound fresh ones. -/
theorem Freshening.Binds.givesFresh {supply : Supply} {names names' : List Name} {st' : Freshening}
    (h : Binds ⟨[], supply⟩ names names' st') :
    st'.subst.GivesFresh names supply.next st'.supply.next := by
  have htag : ∀ n ∈ names, supply.next ≤ (n.subst st'.subst).tag ∧
      (n.subst st'.subst).tag < st'.supply.next :=
    fun n hn => h.fresh.tags _ (List.of_mem_zip (h.mem_zip hn)).2
  have hstays : ∀ n, n ∉ names → n.subst st'.subst = n := fun n hn => h.subst_of_not_mem hn
  refine ⟨fun n hn => ?_, htag, hstays, fun n hn m hm heq => ?_⟩
  · exact List.forall₂_zip h.bases (h.mem_zip hn)
  · have hn : n.tag < supply.next := hn
    have hm : m.tag < supply.next := hm
    -- A name that is replaced is not mistaken for one that stays, the tags tell them apart.
    by_cases hn' : n ∈ names <;> by_cases hm' : m ∈ names
    · have hsnd : (names.zip names').map Prod.snd = names' :=
        List.map_snd_zip (Nat.le_of_eq h.bases.length_eq.symm)
      have hdistinct : ((names.zip names').map Prod.snd).Nodup := by
        rw [hsnd]
        exact h.fresh.nodup
      have hpair := List.inj_on_of_nodup_map hdistinct (h.mem_zip hn') (h.mem_zip hm') heq
      exact congrArg Prod.fst hpair
    · have := (htag n hn').1
      rw [heq, hstays m hm'] at this
      omega
    · have := (htag m hm').1
      rw [← heq, hstays n hn'] at this
      omega
    · rwa [hstays n hn', hstays m hm'] at heq

/-- A walk through an expression that binds every name once and uses it in its scope replaces each
name of the expression by what it is replaced by in the end. -/
theorem Exp.eq_subst_of_freshen {e e' : Exp} {supply : Supply} {st' : Freshening}
    (hnodup : (Pattern.names e.binders).Nodup)
    (hscope : e.InScope (.ofList (Pattern.names e.binders)))
    (h : e.freshen ⟨[], supply⟩ = .ok e' st') : e' = e.subst st'.subst := by
  refine Exp.fits h hscope ⟨hnodup, fun n hn => NameSet.mem_ofList.2 hn, fun n hn => ?_,
    fun n hn => rfl⟩
  exact (Exp.renews h).binds.subst_of_not_mem fun hmem => hn (NameSet.mem_ofList.2 hmem)

/-- Fresh names for what is bound inside do not change what is free, if the sizes in types are
known. -/
theorem Exp.free_subst {e : Exp} {σ : Subst} {next next' : Nat}
    (hσ : σ.GivesFresh (Pattern.names e.binders) next next')
    (hscope : e.InScope (.ofList (Pattern.names e.binders))) (hknown : e.ShapesKnown)
    (hbelow : ∀ n ∈ e.mentions ++ Pattern.names e.binders, n.tag < next) :
    (e.subst σ).free = e.free := by
  have himages := Exp.images_free hσ.injOn (fun n hn => hbelow n (List.mem_append_left _ hn))
    fun n hn => hbelow n (List.mem_append_right _ hn)
  -- A name that is free is not hidden, and all that is bound inside is.
  have hstays : ∀ n ∈ e.free, n.subst σ = n := fun n hn =>
    hσ.stays n fun hmem =>
      Exp.not_mem_hidden_of_mem_free hscope hknown hn (NameSet.mem_ofList.2 hmem)
  refine NameSet.ext fun n => ⟨fun hn => ?_, fun hn => (himages n).2 ⟨n, hn, hstays n hn⟩⟩
  obtain ⟨m, hm, rfl⟩ := (himages n).1 hn
  rwa [hstays m hm]

/-- Suppose that a statement's expression binds every name once and uses it in its scope only, and
that all names there have tags below that of the next fresh name. If there are tags enough, the
statement gets a fresh name for each name bound inside: its expression comes out under one
substitution of these names, and its pattern as it was. What is free stays the same, if the sizes in
types are known. Without tags enough all of them are used up. -/
theorem Stm.freshen_renames {s : Stm} {supply : Supply}
    (hnodup : (Pattern.names s.exp.binders).Nodup)
    (hscope : s.exp.InScope (.ofList (Pattern.names s.exp.binders)))
    (hbelow : ∀ n ∈ s.exp.mentions ++ Pattern.names s.exp.binders, n.tag < supply.next)
    (hnext : supply.next ≤ Supply.lastTag) :
    (supply.next + s.exp.binders.length ≤ Supply.lastTag →
      ∃ (σ : Subst) (s' : Stm) (supply' : Supply), s.freshen supply = .ok s' supply' ∧
        supply'.next = supply.next + s.exp.binders.length ∧ s' = ⟨s.pattern, s.exp.subst σ⟩ ∧
        σ.GivesFresh (Pattern.names s.exp.binders) supply.next supply'.next ∧
        (s.exp.ShapesKnown → s'.free = s.free)) ∧
    (Supply.lastTag < supply.next + s.exp.binders.length →
      s.freshen supply = .error .overflow ⟨Supply.lastTag⟩) := by
  rcases s.draws.cases hnext with ⟨hk, s', supply', h, hnext'⟩ | ⟨hk, supply', h, hnext'⟩
  · refine ⟨fun _ => ?_, fun hlt => by omega⟩
    obtain ⟨e', st', hexp, rfl, rfl⟩ := freshen_eq_ok h
    have hgives := (Exp.renews hexp).binds.givesFresh
    have hsubst := Exp.eq_subst_of_freshen hnodup hscope hexp
    refine ⟨st'.subst, _, _, h, hnext', by rw [hsubst], hgives, fun hknown => ?_⟩
    rw [hsubst, free, free, Exp.free_subst hgives hscope hknown hbelow]
  · refine ⟨fun hle => by omega, fun _ => ?_⟩
    rw [h, ← hnext']

/-! A map over the rows of a matrix whose function adds up a row in a loop:

    ys = map i < n (x <- xs):
      s' = loop s = 0 for j < m:
        e = x[j]
        t = s + e
-/

namespace RowSums

/-- The loop over a row. -/
def sum : Loop :=
  ⟨[⟨"s", 6⟩], [⟨⟨⟨"s", 6⟩, .scalar .i32⟩, .ofInt32 0⟩], .forBelow ⟨"j", 7⟩ (.var ⟨"m", 2⟩),
    .ofStms
      [.ofOp ⟨⟨"e", 8⟩, .scalar .i32⟩ (.index [] ⟨"x", 5⟩ [.var ⟨"j", 7⟩]),
        .arith .add ⟨"t", 9⟩ .i32 (.var ⟨"s", 6⟩) (.var ⟨"e", 8⟩)]
      [.var ⟨"t", 9⟩]⟩

/-- The map over the rows. -/
def stm : Stm :=
  ⟨[⟨⟨"ys", 3⟩, .array .i32 [.var ⟨"n", 1⟩] false⟩],
    .map [] (.var ⟨"n", 1⟩)
      ⟨⟨"i", 4⟩, [⟨⟨"x", 5⟩, .array .i32 [.var ⟨"m", 2⟩] false⟩],
        .bind [⟨⟨"s'", 10⟩, .scalar .i32⟩] (.loop sum) (.yield [.var ⟨"s'", 10⟩]), [.scalar .i32]⟩
      [⟨"xs", 0⟩]⟩

/-- Each name is mentioned in its scope only. -/
theorem stm_inScope : stm.exp.InScope (.ofList (Pattern.names stm.exp.binders)) := by
  simp only [stm, sum, Stm.ofOp, Stm.arith, Body.ofStms, List.foldr, Exp.InScope, Lambda.InScope,
    Loop.InScope, Body.InScope, InOrder, List.map]
  decide

/-- The sizes of the matrix come from outside. -/
theorem stm_shapesKnown : stm.exp.ShapesKnown := by
  simp only [stm, sum, Stm.ofOp, Stm.arith, Body.ofStms, List.foldr, Exp.ShapesKnown,
    Lambda.ShapesKnown, Loop.ShapesKnown, Body.ShapesKnown]
  decide

end RowSums

/-- Seven names are replaced, and the statement is free of the same names as before. -/
theorem freshen_row_sums :
    (Pattern.names RowSums.stm.exp.binders).Nodup ∧
      RowSums.stm.exp.InScope (.ofList (Pattern.names RowSums.stm.exp.binders)) ∧
      RowSums.stm.exp.ShapesKnown ∧
      ∃ (σ : Subst) (s' : Stm) (supply' : Supply),
        RowSums.stm.freshen ⟨11⟩ = .ok s' supply' ∧ supply'.next = 18 ∧
          s' = ⟨RowSums.stm.pattern, RowSums.stm.exp.subst σ⟩ ∧
          σ.GivesFresh (Pattern.names RowSums.stm.exp.binders) 11 18 ∧
          s'.free = RowSums.stm.free := by
  have hnodup : (Pattern.names RowSums.stm.exp.binders).Nodup := by decide
  have hbelow : ∀ n ∈ RowSums.stm.exp.mentions ++ Pattern.names RowSums.stm.exp.binders,
      n.tag < (⟨11⟩ : Supply).next := by decide
  obtain ⟨σ, s', supply', h, hnext, hsubst, hgives, hfree⟩ :=
    (Stm.freshen_renames hnodup RowSums.stm_inScope hbelow (by decide)).1 (by decide)
  have hnext : supply'.next = 18 := hnext.trans (by decide)
  rw [hnext] at hgives
  exact ⟨hnodup, RowSums.stm_inScope, RowSums.stm_shapesKnown, σ, s', supply', h, hnext, hsubst,
    hgives, hfree RowSums.stm_shapesKnown⟩

end MapNest
