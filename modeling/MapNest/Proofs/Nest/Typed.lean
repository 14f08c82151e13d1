import MapNest.Proofs.Aligned
import MapNest.Proofs.Kernel.Flatten
import MapNest.Proofs.Nest.Distinct

/-!
# `MapNest.Proofs.Nest.Typed`: the shapes of the arrays of a kernel nest

In a nest that is well typed (`TypedLevels`) a parameter is a row of its array, and an array that a
map produces has a row for each of its iterations. The kernel reads all arrays outside the nest, at
several indices at once, and its results range over all levels. That the shapes still fit is shown
by two inductions over the run.

* `Arranges.typed_pattern`: an array of the outermost level has the shape of a row of the innermost
  one inside the widths of all levels. Each level adds its own width in front.
* `Arranges.typed_inputs`: what the kernel reads, it reads at some of its indices, in their order,
  from an array with the sizes of these dimensions in front of the shape of the parameter. Types
  are looked up where the levels built so far stand, so this is stated for any types that fit the
  maps inside (`Level.types`). A level that is put around others hands in what they read, with the
  type that it has there.
-/

set_option autoImplicit false

namespace MapNest

/-! ### Well typed nests -/

/-- The types of names inside a map: a parameter has its own. -/
def Level.types (outside : Name → Option Ty) (l : Level) (n : Name) : Option Ty :=
  match l.input? n with
  | some r => some r.param.ty
  | none => outside n

/-- The type of a name in front of a map or in its place, where the arrays that it produces have the
types that they are bound with. -/
def Target.typeOf (scope : Scope) (t : Target) (n : Name) : Option Ty :=
  match (Target.pattern t).find? (·.name = n) with
  | some b => some b.ty
  | none => scope.lookup? n

/-- The target of the outermost of some maps. Without a map there is none. -/
def outermostTarget : List (Enclosing × Target) → Target
  | [] => []
  | (_, t) :: _ => t

/-- A map with its target fits the types of the names around it, and the maps within. -/
structure Enclosing.Typed (scope : Scope) (types : Name → Option Ty) (e : Enclosing) (t : Target)
    (within : List (Enclosing × Target)) : Prop where
  /-- A parameter is a row of its array. -/
  inputs : ∀ r ∈ e.level.inputs,
    (types r.array).map Ty.dims = some (e.level.width :: r.param.ty.dims)
  /-- The rows of an array are what is returned into it. -/
  outputs : ∀ o ∈ t, ∀ n ∈ o.value.name?,
    ∀ ty ∈ Target.typeOf scope (outermostTarget within) n,
      o.binder.ty.dims = e.level.width :: ty.dims
  /-- The arrays have the types in scope that they are bound with. -/
  patterns : ∀ o ∈ t, scope.lookup? o.binder.name = some o.binder.ty

/-- Some maps around one another are well typed, the outermost first, in front of which names have
the given types. -/
def TypedLevels (scope : Scope) : (Name → Option Ty) → List (Enclosing × Target) → Prop
  | _, [] => True
  | types, (e, t) :: within =>
    e.Typed scope types t within ∧ TypedLevels scope (e.level.types types) within

/-- Some maps bind no name twice, no parameter is hidden further inside, and all names that they
mention outside of types have an earlier tag. -/
structure Settled (levels : List (Enclosing × Target)) (next : Nat) : Prop
    extends Apart levels next where
  /-- What is declared within a map is no parameter of the map. -/
  params : EachLevel (fun e _ within => ∀ n ∈ declared within, e.level.input? n = none) levels
  inputs : ∀ x ∈ levels, ∀ r ∈ x.1.level.inputs, r.array.tag < next
  values : ∀ x ∈ levels, ∀ o ∈ x.2, ∀ n, o.value = .var n → n.tag < next

variable {scope scope' : Scope} {types types' : Name → Option Ty} {n : Name}
  {levels within : List (Enclosing × Target)} {x : Enclosing × Target} {e : Enclosing} {t : Target}
  {lo hi : Nat}

/-- Maps that are settled stay so without the outermost one. -/
theorem Settled.tail (h : Settled (x :: within) lo) : Settled within lo where
  toApart := h.toApart.tail
  params := h.params.2
  inputs y hy := h.inputs y (List.mem_cons_of_mem _ hy)
  values y hy := h.values y (List.mem_cons_of_mem _ hy)

/-- A parameter of a map is not declared within, and it has an earlier tag. -/
theorem Settled.tag_of_input (h : Settled ((e, t) :: within) lo) {r : RowInput}
    (hr : r ∈ e.level.inputs) : r.param.name.tag < lo :=
  h.tag_of_mem_names (List.mem_cons_self ..)
    (Enclosing.mem_names.2 (Enclosing.param_mem_bound hr))

/-- A name that the map's body binds is no parameter of the map. -/
theorem Settled.input?_letBound (h : Settled ((e, t) :: within) lo) (hn : n ∈ e.letBound) :
    e.level.input? n = none := by
  have hnames := h.names
  rw [List.flatMap_cons, List.nodup_append, Enclosing.names, List.nodup_cons,
    List.nodup_append] at hnames
  refine Level.input?_eq_none_iff.2 fun i hi hname => ?_
  exact hnames.1.2.2.2 n (Level.mem_names_params.2 ⟨i, hi, hname⟩) n (NameSet.mem_toList.2 hn) rfl

/-- A map does not have two parameters of one name. -/
theorem Settled.input?_eq_some (h : Settled ((e, t) :: within) lo) {r : RowInput}
    (hr : r ∈ e.level.inputs) : e.level.input? r.param.name = some r := by
  have hnames := h.names
  rw [List.flatMap_cons, List.nodup_append] at hnames
  have hnodup := (List.nodup_cons.1 (Enclosing.nodup_params hnames.1)).2
  rw [Pattern.names, Level.params, List.map_map] at hnodup
  cases hfind : e.level.input? r.param.name with
  | none => exact absurd rfl (Level.input?_eq_none_iff.1 hfind r hr)
  | some r' =>
    obtain ⟨hr', hname⟩ := Level.input?_eq_some hfind
    rw [List.inj_on_of_nodup_map hnodup hr' hr hname]

/-! ### Types around the maps -/

/-- If a target binds its arrays with the types they have in scope, it does not change what is found
there. -/
theorem Target.typeOf_eq_lookup? (h : ∀ o ∈ t, scope.lookup? o.binder.name = some o.binder.ty) :
    Target.typeOf scope t n = scope.lookup? n := by
  unfold typeOf
  split
  · rename_i b hb
    obtain ⟨o, ho, rfl⟩ := List.mem_map.1 (List.mem_of_find?_eq_some hb)
    have hname : o.binder.name = n := by simpa using List.find?_some hb
    rw [← hname, h o ho]
  · rfl

/-- The arrays that the outermost of some well-typed maps produces have their types in scope. -/
theorem TypedLevels.patterns_outermost (h : TypedLevels scope types levels) :
    ∀ o ∈ outermostTarget levels, scope.lookup? o.binder.name = some o.binder.ty := by
  cases levels with
  | nil => exact fun o ho => absurd ho List.not_mem_nil
  | cons x within => exact h.1.patterns

/-- The rows of an array are what is returned into it, as that is typed in scope. -/
theorem TypedLevels.outputs (h : TypedLevels scope types ((e, t) :: within)) {o : Output}
    (ho : o ∈ t) (hvalue : o.value = .var n) {ty : Ty} (hty : scope.lookup? n = some ty) :
    o.binder.ty.dims = e.level.width :: ty.dims := by
  refine h.1.outputs o ho n (by rw [hvalue]; rfl) ty ?_
  rw [Target.typeOf_eq_lookup? h.2.patterns_outermost, hty]
  rfl

/-- Maps that are well typed stay so when names with later tags get types. -/
theorem TypedLevels.later (hs : Settled levels lo)
    (hscope : ∀ n : Name, n.tag < lo → scope'.lookup? n = scope.lookup? n)
    (htypes : ∀ n : Name, n.tag < lo → types' n = types n) (h : TypedLevels scope types levels) :
    TypedLevels scope' types' levels := by
  induction levels generalizing types types' with
  | nil => exact trivial
  | cons x within ih =>
    obtain ⟨e, t⟩ := x
    have hbinder : ∀ o ∈ t, o.binder.name.tag < lo := fun o ho =>
      hs.tag_of_mem_arrays (List.mem_cons_self ..) (Target.mem_names_pattern.2 ⟨o, ho, rfl⟩)
    refine ⟨⟨fun r hr => ?_, fun o ho n hvalue ty hty => ?_, fun o ho => ?_⟩,
      ih hs.tail (fun n hn => ?_) h.2⟩
    · rw [htypes _ (hs.inputs _ (List.mem_cons_self ..) r hr)]
      exact h.1.inputs r hr
    · refine h.1.outputs o ho n hvalue ty ?_
      have hn := hs.values _ (List.mem_cons_self ..) o ho n (Operand.name?_eq_some_iff.1 hvalue)
      unfold Target.typeOf at hty ⊢
      rwa [hscope n hn] at hty
    · rw [hscope _ (hbinder o ho)]
      exact h.1.patterns o ho
    · unfold Level.types
      rw [htypes n hn]

/-- Outside some maps the names that these declare have the types in scope, and so have new ones. -/
structure Surrounds (types : Name → Option Ty) (scope : Scope)
    (levels : List (Enclosing × Target)) (lo : Nat) : Prop where
  declared : ∀ n ∈ declared levels, types n = scope.lookup? n
  new : ∀ n : Name, lo ≤ n.tag → types n = scope.lookup? n

/-- This stays true inside a map. -/
theorem Surrounds.enter (h : Surrounds types scope ((e, t) :: within) lo)
    (hs : Settled ((e, t) :: within) lo) : Surrounds (e.level.types types) scope within lo where
  declared n hn := by
    unfold Level.types
    rw [hs.params.1 n hn]
    exact h.declared n (mem_declared_cons_of_mem hn)
  new n hn := by
    have hnone : e.level.input? n = none := by
      refine Level.input?_eq_none_iff.2 fun r hr hname => ?_
      have := hs.tag_of_input hr
      rw [hname] at this
      omega
    unfold Level.types
    rw [hnone]
    exact h.new n hn

/-! ### The results of the kernel -/

section Arranges

variable {s : Selection} {bound : NameSet} {built : Built}

/-- An array of the outermost level is bound by its map, or it is new. -/
theorem Arranges.mem_pattern (h : Arranges scope s bound levels lo hi built) {b : Binder}
    (hb : b ∈ built.nest.outermost.pattern) :
    (∃ o ∈ outermostTarget levels, o.binder = b) ∨ lo ≤ b.name.tag := by
  cases h.builds with
  | @innermost t f captures _ _ _ _ _ htargets _ hpattern _ =>
    have hb : b ∈ f.pattern := hb
    rw [hpattern] at hb
    obtain ⟨o, ho, rfl⟩ := List.mem_map.1 hb
    exact Or.inl ⟨o, htargets o ho, rfl⟩
  | enclose _ _ _ _ hpattern _ _ => exact (hpattern b hb).imp_right fun hnew => hnew.2.1

/-- The shape of an array that collects another one. -/
theorem Collects.dims_eq {a b : Binder} (h : Collects lo e t a b)
    (htyped : TypedLevels scope types ((e, t) :: within))
    (hs : Settled ((e, t) :: within) lo)
    (hb : (∃ o ∈ outermostTarget within, o.binder = b) ∨ lo ≤ b.name.tag) :
    a.ty.dims = e.level.width :: b.ty.dims := by
  cases h with
  | returned h =>
    rcases hb with ⟨o, ho, rfl⟩ | hnew
    · exact htyped.outputs h rfl (htyped.2.patterns_outermost o ho)
    · -- A new array is returned by no map.
      have := hs.values _ (List.mem_cons_self ..) _ h _ rfl
      omega
  | drawn _ hty _ => rw [hty, Ty.dims_arrayOf]

/-- An array of the outermost level has the widths of all levels in front of the shape of a row at
the same place of the innermost one. -/
theorem Arranges.typed_pattern (h : Arranges scope s bound levels lo hi built) :
    ∀ types, TypedLevels scope types levels → Settled levels lo →
    (∀ outer y, levels = outer ++ [y] →
      ∀ o ∈ s.targets.inner, o.binder.ty.outerDim? = some y.1.level.width) →
    List.Forall₂ (fun a b => a.ty.dims = levels.map (·.1.level.width) ++ b.ty.dims.drop 1)
      built.nest.outermost.pattern built.nest.inner.pattern := by
  induction h with
  | @innermost position e t captures lo hi =>
    intro types _ _ hkept
    show List.Forall₂ _ (Target.pattern s.targets.inner) (Target.pattern s.targets.inner)
    refine List.forall₂_same.2 fun b hb => ?_
    obtain ⟨o, ho, rfl⟩ := List.mem_map.1 hb
    have hwidth := hkept [] _ rfl o ho
    rw [Ty.outerDim?, List.head?_eq_some_iff] at hwidth
    obtain ⟨rest, hrest⟩ := hwidth
    rw [hrest]
    rfl
  | @enclose within position e t built d new captures lo mid top hi hwithin hdivides hnew hdrawn _
      _ _ _ ih =>
    intro types htyped hs hkept
    have hrows := ih _ htyped.2 hs.tail fun outer y hy o ho =>
      hkept ((e, t) :: outer) y (congrArg ((e, t) :: ·) hy) o ho
    have hcollects := hdivides.collects (e := e) hnew hdrawn hwithin.builds.le
      (List.nodup_append.1 (hwithin.nodup_arrays hs.toApart.tail)).1
    -- The levels inside follow the order of the new one, so places still belong together.
    refine forall₂_comp (forall₂_imp_of_mem hcollects fun a _ b hb hab => hab.dims_eq htyped hs ?_)
      (Pattern.forall₂_permute hrows _) fun a b c hab hbc => ?_
    · exact hwithin.mem_pattern (Pattern.mem_of_mem_permute hb)
    · rw [hab, hbc, List.map_cons, List.cons_append]

end Arranges

/-! ### What the kernel reads -/

/-- A kernel input with some dimensions of a space: it is read at their indices, in their order, and
its array has their sizes in front of the shape of the parameter. -/
def KernelInput.Fits (types : Name → Option Ty) (space : List Axis) (i : KernelInput) : Prop :=
  ∃ axes : List Axis, axes.Sublist space ∧ i.indices = axes.map (fun a => .var a.index) ∧
    (types i.array).map Ty.dims = some (axes.map (·.size) ++ i.param.ty.dims)

/-- The dimensions that some levels contribute to the iteration space. -/
def Level.spaceAll (levels : List Level) : List Axis := levels.map fun l => ⟨l.index, l.width⟩

namespace Level

variable {l : Level} {inner : List Level}

/-- The order in which levels return their arrays does not change what is read. -/
theorem flattenAll_map_permute {order : List Nat} :
    flattenAll (inner.map (permute order)) = flattenAll inner := by
  rw [flattenAll, List.foldr_map]
  rfl

/-- It does not change the iteration space, either. -/
theorem spaceAll_map_permute {order : List Nat} :
    spaceAll (inner.map (permute order)) = spaceAll inner := by
  rw [spaceAll, List.map_map]
  rfl

/-- A parameter of a level is read at the level's index. -/
theorem fits_input {r : RowInput}
    (hr : (types r.array).map Ty.dims = some (l.width :: r.param.ty.dims)) :
    KernelInput.Fits types (spaceAll (l :: inner)) ⟨r.param, r.array, [.var l.index]⟩ :=
  ⟨[⟨l.index, l.width⟩], (List.nil_sublist _).cons_cons _, rfl, hr⟩

/-- What is read inside a level is read outside as well, from the array of a parameter if it is read
from the parameter. -/
theorem fits_reindex {j : KernelInput} {types' : Name → Option Ty}
    (hl : ∀ r ∈ l.inputs, (types r.array).map Ty.dims = some (l.width :: r.param.ty.dims))
    (hj : j.Fits types' (spaceAll inner))
    (hsame : (types' j.array).map Ty.dims = (l.types types j.array).map Ty.dims) :
    (l.reindex j).Fits types (spaceAll (l :: inner)) := by
  obtain ⟨axes, hsub, hindices, hdims⟩ := hj
  rw [hsame] at hdims
  unfold Level.types at hdims
  cases hinput : l.input? j.array with
  | none =>
    rw [hinput] at hdims
    rw [reindex_of_input?_eq_none hinput]
    exact ⟨axes, hsub.cons _, hindices, hdims⟩
  | some r =>
    rw [hinput, Option.map_some, Option.some.injEq] at hdims
    rw [reindex_of_input?_eq_some hinput]
    refine ⟨⟨l.index, l.width⟩ :: axes, hsub.cons_cons _, ?_, ?_⟩
    · show .var l.index :: j.indices = _
      rw [hindices, List.map_cons]
    · show (types r.array).map Ty.dims = _
      rw [hl r (input?_eq_some hinput).1, hdims]
      rfl

/-- What the kernel reads and no level binds is demanded outside the levels. -/
theorem array_mem_aroundAll {d : Demand} {levels : List Level} {i : KernelInput}
    (hi : i ∈ flattenAll levels) (hbound : ∀ l ∈ levels, i.array ∉ l.bound) :
    i.array ∈ (d.aroundAll levels).free := by
  obtain ⟨l, hl, r, hr, harray⟩ := input_of_mem_flattenAll hi
  have hfree : i.array ∈ l.free :=
    mem_free_iff_mentions.2 ⟨Or.inr (Or.inr (Or.inr ⟨r, hr, harray⟩)), hbound l hl⟩
  clear hi
  induction levels with
  | nil => cases hl
  | cons l' levels ih =>
    obtain ⟨hhead, htail⟩ := List.forall_mem_cons.1 hbound
    rcases List.mem_cons.1 hl with rfl | hl
    · exact Demand.mem_aroundAll_cons.2 (Or.inl hfree)
    · exact Demand.mem_aroundAll_cons.2 (Or.inr ⟨ih htail hl, hhead⟩)

end Level

/-- The parameters of a closed level are rows of their arrays, if those of its map are and the
arrays that carry values have these for rows. New arrays are returned by the map left behind. -/
theorem Frame.Closes.typed_inputs {f : Frame} {bound : NameSet} {demand : Demand}
    {captures : List Capture} {target : Target} {first : Nat}
    (h : f.Closes bound demand captures lo hi) (hadded : captures.flatMap (·.added) ⊆ target)
    (hmap : ∀ r ∈ f.enclosing.level.inputs, r.array.tag < first ∧
      (types r.array).map Ty.dims = some (f.enclosing.level.width :: r.param.ty.dims))
    (hcarrier : ∀ m b, f.carrier? m = some b → b.name.tag < first ∧
      ∀ ty, scope.lookup? m = some ty →
        (types b.name).map Ty.dims = some (f.enclosing.level.width :: ty.dims))
    (hnew : ∀ m : Name, lo ≤ m.tag → types m = scope.lookup? m)
    (hlet : ∀ m ∈ f.enclosing.letBound, m.tag < lo) (hbelow : ∀ m ∈ f.below, m.tag < lo)
    (htyped : ∀ c ∈ captures, c.Typed scope lo) :
    ∀ r ∈ (f.closed demand captures).inputs,
      (types r.array).map Ty.dims = some (f.enclosing.level.width :: r.param.ty.dims) ∧
        (first ≤ r.array.tag → r.array ∈ Pattern.names (Target.pattern target)) := by
  intro r hr
  obtain ⟨i, ⟨hown, -⟩ | ⟨c, hc, rfl⟩, rfl⟩ := Frame.mem_inputs_closed.1 hr
  · rw [RowInput.array_demote, RowInput.dims_demote]
    obtain ⟨htag, hdims⟩ := hmap i hown
    exact ⟨hdims, fun hle => absurd htag (Nat.not_lt.2 hle)⟩
  · rw [RowInput.array_demote, RowInput.dims_demote]
    have htag : c.input.param.name.tag < lo :=
      (Frame.of_mem_captured (h.mem_captured hc)).1.elim (hlet _) (hbelow _)
    cases h.drawn c hc with
    | carried b hb harray _ =>
      obtain ⟨hold, hdims⟩ := hcarrier _ _ hb
      rw [harray]
      exact ⟨hdims _ ((htyped c hc).param htag), fun hle => absurd hold (Nat.not_lt.2 hle)⟩
    | fresh hlo _ heq =>
      have hmem : _ ∈ c.added := heq ▸ List.mem_singleton_self _
      refine ⟨?_, fun _ => ?_⟩
      swap
      · exact Target.mem_names_pattern.2 ⟨_, hadded (List.mem_flatMap.2 ⟨c, hc, hmem⟩), rfl⟩
      rw [hnew _ hlo, (htyped c hc).added _ hmem, Option.map_some, Ty.dims_arrayOf]

/-- What is captured is no parameter of the map, and it has the type that it has in scope. -/
theorem Settled.of_mem_captured {f : Frame} {demand : Demand} {first : Nat}
    (hs : Settled ((f.enclosing, t) :: within) first)
    (hsurrounds : Surrounds types scope ((f.enclosing, t) :: within) first) (hle : first ≤ lo)
    (hbelow : ∀ m ∈ f.below, m ∈ declared within ∨ (first ≤ m.tag ∧ m.tag < lo))
    (hn : n ∈ f.captured demand) :
    f.enclosing.level.input? n = none ∧ types n = scope.lookup? n ∧ n.tag < lo := by
  rcases (Frame.of_mem_captured hn).1 with hlet | hmem
  · have hdeclared : n ∈ declared ((f.enclosing, t) :: within) := mem_declared_of_mem_letBound hlet
    exact ⟨hs.input?_letBound hlet, hsurrounds.declared _ hdeclared,
      Nat.lt_of_lt_of_le (hs.tags _ hdeclared) hle⟩
  · rcases hbelow _ hmem with hdeclared | ⟨hnew, hlt⟩
    · have houter : n ∈ declared ((f.enclosing, t) :: within) := mem_declared_cons_of_mem hdeclared
      exact ⟨hs.params.1 _ hdeclared, hsurrounds.declared _ houter,
        Nat.lt_of_lt_of_le (hs.tags _ houter) hle⟩
    · refine ⟨Level.input?_eq_none_iff.2 fun i hi hname => ?_, hsurrounds.new _ hnew, hlt⟩
      have := hs.tag_of_input hi
      rw [hname] at this
      omega

/-- A level gives the names that its map handed to what is inside the types that the map gave them.
What else is handed in has the type that it has in scope. -/
theorem Frame.Closes.types_closed {f : Frame} {bound : NameSet} {demand : Demand}
    {captures : List Capture} {first : Nat} (h : f.Closes bound demand captures lo hi)
    (hs : Settled ((f.enclosing, t) :: within) first)
    (hsurrounds : Surrounds types scope ((f.enclosing, t) :: within) first) (hle : first ≤ lo)
    (hbelow : ∀ m ∈ f.below, m ∈ declared within ∨ (first ≤ m.tag ∧ m.tag < lo))
    (htyped : ∀ c ∈ captures, c.Typed scope lo)
    (hhanded : n ∈ f.enclosing.bound → n ∈ (f.closed demand captures).bound) :
    (f.enclosing.level.types types n).map Ty.dims
      = ((f.closed demand captures).types types n).map Ty.dims := by
  unfold Level.types
  cases hinput : (f.closed demand captures).input? n with
  | none =>
    cases hown : f.enclosing.level.input? n with
    | none => rfl
    | some i =>
      -- A parameter of the map that is read inside is one of the level.
      obtain ⟨hi, hname⟩ := Level.input?_eq_some hown
      have hmem : n ∈ f.enclosing.level.bound := Level.mem_bound.2 (Or.inr ⟨i, hi, hname⟩)
      rcases Level.mem_bound.1 (hhanded (Enclosing.mem_bound.2 (Or.inr hmem))) with
        hindex | ⟨r, hr, hr'⟩
      · have hnames := hs.names
        rw [List.flatMap_cons, List.nodup_append] at hnames
        have hnodup := List.nodup_cons.1 (Enclosing.nodup_params hnames.1)
        refine absurd (Level.mem_names_params.2 ⟨i, hi, hname.trans hindex⟩) hnodup.1
      · exact absurd hr' (Level.input?_eq_none_iff.1 hinput r hr)
  | some r =>
    obtain ⟨hr, rfl⟩ := Level.input?_eq_some hinput
    obtain ⟨i, ⟨hi, -⟩ | ⟨c, hc, rfl⟩, rfl⟩ := Frame.mem_inputs_closed.1 hr
    · rw [RowInput.name_demote, hs.input?_eq_some hi]
      simp only [Option.map_some, RowInput.dims_demote]
    · obtain ⟨hnone, htypes, htag⟩ :=
        hs.of_mem_captured hsurrounds hle hbelow (h.mem_captured hc)
      rw [RowInput.name_demote, hnone]
      simp only [Option.map_some, RowInput.dims_demote]
      rw [htypes, (htyped c hc).param htag, Option.map_some]

section Inputs

variable {s : Selection} {bound : NameSet} {built : Built}

/-- A value that the innermost map returns is a row of the array that it is returned into. -/
theorem TypedLevels.carried (h : TypedLevels scope types [(e, t)]) (hs : Settled [(e, t)] lo)
    (hsurrounds : Surrounds types scope [(e, t)] lo) {b : Binder} (hmem : ⟨b, .var n⟩ ∈ t) :
    b.name.tag < lo ∧ ∀ ty, scope.lookup? n = some ty →
      (types b.name).map Ty.dims = some (e.level.width :: ty.dims) := by
  have hname := Target.mem_names_pattern.2 ⟨_, hmem, rfl⟩
  refine ⟨hs.tag_of_mem_arrays (List.mem_singleton_self _) hname, fun ty hty => ?_⟩
  have hdeclared : b.name ∈ declared [(e, t)] := List.mem_flatMap.2
    ⟨_, List.mem_singleton_self _, List.mem_append_left _ hname⟩
  rw [hsurrounds.declared _ hdeclared, h.1.patterns _ hmem, Option.map_some,
    h.outputs hmem rfl hty]

/-- What is read inside and bound there by the map or by the one just inside is handed in. -/
theorem Arranges.handed_in {position : Nat} {d : Division} {new : List Taken}
    {captures : List Capture} {mid top : Nat} (h : Arranges scope s bound within lo mid built)
    (hcloses : (built.frame position e d new).Closes bound built.demand captures top hi)
    (hs : Settled ((e, t) :: within) lo) {j : KernelInput}
    (hj : j ∈ Level.flattenAll built.nest.toList)
    (hbound : j.array ∈ e.bound ∨
      j.array ∈ Pattern.names (Target.pattern built.targets.outermost)) :
    j.array ∈ ((built.frame position e d new).closed built.demand captures).bound := by
  have hdisjoint := h.disjoint_levels hs.toApart (hbound.imp_left Enclosing.mem_names.2)
  have hdemand : j.array ∈ built.demand.free := by
    rw [h.builds.demand_eq]
    refine Level.array_mem_aroundAll hj fun l hl hmem => hdisjoint ?_
    exact List.mem_flatMap.2 ⟨l, hl, Level.mem_names.2 hmem⟩
  exact Frame.mem_bound_closed_of_demand hcloses.names hdemand
    (hbound.imp_right NameSet.mem_ofList.2)

/-- A new array that is read inside is left behind by the map just inside, so it is handed in, and
that as a parameter: an index is not new. -/
theorem Arranges.param_of_new {position : Nat} {d : Division} {new : List Taken}
    {captures : List Capture} {mid top : Nat} (h : Arranges scope s bound within lo mid built)
    (hcloses : (built.frame position e d new).Closes bound built.demand captures top hi)
    (hs : Settled ((e, t) :: within) lo) {j : KernelInput}
    (hj : j ∈ Level.flattenAll built.nest.toList) (hnew : lo ≤ j.array.tag)
    (hleft : j.array ∈ Pattern.names (Target.pattern built.targets.outermost)) :
    ∃ r ∈ ((built.frame position e d new).closed built.demand captures).inputs,
      r.param.name = j.array := by
  refine (Level.mem_bound.1 (h.handed_in hcloses hs hj (Or.inr hleft))).resolve_left ?_
  intro hindex
  have hold : j.array.tag < lo :=
    hs.tag_of_mem_names (List.mem_cons_self ..) (List.mem_cons.2 (Or.inl hindex))
  omega

/-- What the levels built so far read, they read at their own indices from arrays of fitting shape.
The new ones among these are returned by the outermost map left behind. -/
theorem Arranges.typed_inputs (h : Arranges scope s bound levels lo hi built) :
    ∀ types, TypedLevels scope types levels → Settled levels lo →
    Surrounds types scope levels lo → ∀ i ∈ Level.flattenAll built.nest.toList,
      i.Fits types (Level.spaceAll built.nest.toList) ∧
        (lo ≤ i.array.tag → i.array ∈ Pattern.names (Target.pattern built.targets.outermost)) := by
  induction h with
  | @innermost position e t captures lo hi hrestore hcloses _ htyped =>
    intro types hlevels hs hsurrounds i hi
    have hinputs : ∀ r ∈ ((s.frame position e).closed ⟨s.free ∩ bound, s.consumed ∩ bound⟩
        captures).inputs, (types r.array).map Ty.dims = some (e.level.width :: r.param.ty.dims) ∧
          (lo ≤ r.array.tag →
            r.array ∈ Pattern.names (Target.pattern (s.restore (captures.flatMap (·.added))))) := by
      refine hcloses.typed_inputs (List.subset_append_left ..) (fun r hr => ?_)
        (fun m b hb => ?_) hsurrounds.new
        (fun m hm => hs.tags m (mem_declared_of_mem_letBound hm))
        (fun m hm => absurd hm NameSet.not_mem_empty) htyped
      · exact ⟨hs.inputs _ (List.mem_singleton_self _) r hr, hlevels.1.inputs r hr⟩
      · refine hlevels.carried hs hsurrounds (hrestore.subset ?_)
        exact List.mem_append_right _
          (List.mem_map_of_mem (Selection.mem_passed_of_carrier?_eq_some hb))
    rcases Level.mem_flattenAll_cons.1 hi with ⟨r, hr, rfl⟩ | ⟨j, hj, -⟩
    · exact ⟨Level.fits_input (hinputs r hr).1, (hinputs r hr).2⟩
    · cases hj
  | @enclose within position e t built d new captures lo mid top hi hwithin _ _ _ hle hcloses _
      htyped ih =>
    intro types hlevels hs hsurrounds i hi
    have hlo := hwithin.builds.le
    have hinner := ih _ hlevels.2 hs.tail (hsurrounds.enter hs)
    have hbelow : ∀ m ∈ (built.frame position e d new).below,
        m ∈ declared within ∨ (lo ≤ m.tag ∧ m.tag < top) := fun m hm =>
      (hwithin.builds.declared_of_mem_outermost (NameSet.mem_ofList.1 hm)).imp_right fun hnew =>
        ⟨hnew.1, Nat.lt_of_lt_of_le hnew.2 hle⟩
    have htags : ∀ m ∈ declared ((e, t) :: within), m.tag < top := fun m hm =>
      Nat.lt_of_lt_of_le (hs.tags m hm) (Nat.le_trans hlo hle)
    have hinputs : ∀ r ∈ ((built.frame position e d new).closed built.demand captures).inputs,
        (types r.array).map Ty.dims = some (e.level.width :: r.param.ty.dims) ∧
          (lo ≤ r.array.tag →
            r.array ∈ Pattern.names (Target.pattern (d.kept ++ captures.flatMap (·.added)))) := by
      refine hcloses.typed_inputs (List.subset_append_right ..) (fun r hr => ?_)
        (fun m b hb => ?_) (fun m hm => hsurrounds.new m (by omega)) (fun m hm => htags m ?_)
        (fun m hm => ?_) htyped
      · exact ⟨hs.inputs _ (List.mem_cons_self ..) r hr, hlevels.1.inputs r hr⟩
      · cases hb
      · exact mem_declared_of_mem_letBound hm
      · rcases hbelow m hm with hold | hnew
        · exact htags m (mem_declared_cons_of_mem hold)
        · exact hnew.2
    rw [Stack.toList_pushOuter, Stack.toList_map] at hi ⊢
    rcases Level.mem_flattenAll_cons.1 hi with ⟨r, hr, rfl⟩ | ⟨j, hj, rfl⟩
    · exact ⟨Level.fits_input (hinputs r hr).1, (hinputs r hr).2⟩
    · rw [Level.flattenAll_map_permute] at hj
      refine ⟨Level.fits_reindex (fun r hr => (hinputs r hr).1)
        (Level.spaceAll_map_permute ▸ (hinner j hj).1) ?_, ?_⟩
      · exact hcloses.types_closed hs hsurrounds (Nat.le_trans hlo hle) hbelow htyped
          fun hbound => hwithin.handed_in hcloses hs hj (Or.inl hbound)
      · intro hnew
        rcases Level.reindex_cases _ j with ⟨r, hr, -, heq⟩ | ⟨hnone, heq⟩ <;> rw [heq] at hnew ⊢
        · exact (hinputs r hr).2 hnew
        · obtain ⟨r, hr, hname⟩ :=
            hwithin.param_of_new hcloses hs hj hnew ((hinner j hj).2 hnew)
          exact absurd hname (hnone r hr)

end Inputs

end MapNest
