import MapNest.Kernel.Flatten
import MapNest.Proofs.Analysis.Mentions
import MapNest.Proofs.Nest.Scoped

/-!
# `MapNest.Proofs.Kernel.Flatten`: what the kernel of a nest can see

`KernelNest.flatten` makes one kernel of a nest (`KernelNest.flatten_eq_ok`). What stood between two
levels of the nest has no place between them any more: the kernel reads all arrays in front of the
outermost level. A parameter of an inner level that reads a parameter of an outer one is no trouble,
since `Level.reindex` reads the outer one's array in its place. Whatever else an inner level reads
has to be visible out there.

`array_of_mem_flattenAll` says that it is: each array is demanded outside all the levels, or it is
the index of one of them. From a nest that demands nothing of what is bound around it
(`KernelNest.Closed`) we get a kernel that mentions nothing of it, but for indices it reads as
arrays (`Closed.mentions_index`), and whose types and sizes are known outside (`Closed.regular`).
-/

set_option autoImplicit false

namespace MapNest

variable {bound : NameSet} {n : Name}

/-! ### The product of the widths -/

/-- A step of the multiplication, and what remains to be done. -/
theorem multiplyWidths_cons_eq_ok {product total w : Operand} {widths : List Operand}
    {supply supply' : Supply} {stms : List Stm}
    (h : multiplyWidths product (w :: widths) supply = .ok (stms, total) supply') :
    ∃ rest, multiplyWidths (.var ⟨"nesting_size", supply.next⟩) widths ⟨supply.next + 1⟩
        = .ok (rest, total) supply' ∧
      stms = Stm.arith .mul ⟨"nesting_size", supply.next⟩ .i32 product w :: rest := by
  rw [multiplyWidths] at h
  obtain ⟨name, s₁, hname, h⟩ := bind_eq_ok_iff.1 h
  obtain ⟨⟨rest, total'⟩, s₂, hrest, hpure⟩ := bind_eq_ok_iff.1 h
  obtain ⟨heq, rfl⟩ := pure_eq_ok_iff.1 hpure
  obtain ⟨-, rfl, rfl⟩ := Supply.fresh_eq_ok_iff.1 hname
  cases heq
  exact ⟨rest, hrest, rfl⟩

/-- The partial products take new names, and their computation binds nothing else. -/
theorem multiplyWidths_drawn {product total : Operand} {widths : List Operand}
    {supply supply' : Supply} {stms : List Stm}
    (h : multiplyWidths product widths supply = .ok (stms, total) supply') :
    Drawn supply.next supply'.next (Stm.patternNames stms) ∧ (∀ s ∈ stms, s.exp.binders = []) ∧
      supply.next ≤ supply'.next := by
  induction widths generalizing product supply stms with
  | nil =>
    rw [multiplyWidths] at h
    obtain ⟨heq, rfl⟩ := pure_eq_ok_iff.1 h
    cases heq
    exact ⟨.nil, by simp, Nat.le_refl _⟩
  | cons w rest ih =>
    obtain ⟨stms', hrest, rfl⟩ := multiplyWidths_cons_eq_ok h
    obtain ⟨hdrawn, hbinders, hle⟩ := ih hrest
    have hfirst : Drawn supply.next (supply.next + 1) [⟨"nesting_size", supply.next⟩] :=
      .singleton (Nat.le_refl _) (Nat.lt_succ_self _)
    refine ⟨hfirst.append hdrawn (Nat.le_succ _) hle, ?_, Nat.le_of_succ_le hle⟩
    exact List.forall_mem_cons.2 ⟨rfl, hbinders⟩

/-- A statement that computes a number mentions its two operands. -/
theorem Stm.mem_mentions_arith {op : Arith} {name : Name} {ty : Scalar} {left right : Operand} :
    n ∈ (Stm.arith op name ty left right).mentions ↔ left = .var n ∨ right = .var n := by
  have hmentions : (Stm.arith op name ty left right).mentions = Operand.names [left, right] := by
    simp [Stm.arith, Stm.ofOp, mentions, Exp.mentions, Op.mentions, Pattern.dimNames, Ty.dimNames,
      Ty.dims, Operand.names]
  rw [hmentions, Operand.mem_names, List.mem_cons, List.mem_singleton, eq_comm,
    eq_comm (b := right)]

/-- The product and its computation mention names of the widths, and new ones. -/
theorem multiplyWidths_mentions {P : Name → Prop} {widths : List Operand} {supply' : Supply}
    (hwidths : ∀ w ∈ widths, ∀ m, w = .var m → P m) :
    ∀ {product total : Operand} {supply : Supply} {stms : List Stm},
      (∀ m, product = .var m → P m) →
      (∀ m : Name, supply.next ≤ m.tag → m.tag < supply'.next → P m) →
      multiplyWidths product widths supply = .ok (stms, total) supply' →
      (∀ m, total = .var m → P m) ∧ ∀ s ∈ stms, ∀ m ∈ s.mentions, P m := by
  induction widths with
  | nil =>
    intro product total supply stms hproduct _ h
    rw [multiplyWidths] at h
    obtain ⟨heq, rfl⟩ := pure_eq_ok_iff.1 h
    cases heq
    exact ⟨hproduct, by simp⟩
  | cons w rest ih =>
    intro product total supply stms hproduct hnew h
    obtain ⟨stms', hrest, rfl⟩ := multiplyWidths_cons_eq_ok h
    have hle := (multiplyWidths_drawn hrest).2.2
    have hproduct' : ∀ m, Operand.var ⟨"nesting_size", supply.next⟩ = .var m → P m := by
      intro m hm
      cases hm
      exact hnew _ (Nat.le_refl _) hle
    obtain ⟨htotal, hmentions⟩ := ih (fun w' hw' => hwidths w' (List.mem_cons_of_mem _ hw'))
      hproduct' (fun m hm => hnew m (Nat.le_of_succ_le hm)) hrest
    refine ⟨htotal, List.forall_mem_cons.2 ⟨fun m hm => ?_, hmentions⟩⟩
    -- The first statement reads the product so far and one width.
    rcases Stm.mem_mentions_arith.1 hm with hleft | hright
    · exact hproduct m hleft
    · exact hwidths w (List.mem_cons_self ..) m hright

/-- If the widths are known where the names of a set are not, and the supply is above these names,
then the product and its computation have nothing to do with the set. -/
theorem multiplyWidths_known {widths : List Operand} (hwidths : ∀ w ∈ widths, w.Known bound)
    {product total : Operand} {supply supply' : Supply} {stms : List Stm}
    (hproduct : product.Known bound) (hsupply : ∀ n ∈ bound, n.tag < supply.next)
    (h : multiplyWidths product widths supply = .ok (stms, total) supply') :
    total.Known bound ∧ (∀ s ∈ stms, ∀ n ∈ s.free, n ∉ bound) ∧
      ∀ n ∈ Stm.patternNames stms, n ∉ bound := by
  have hnew : ∀ n : Name, supply.next ≤ n.tag → n ∉ bound := by
    intro n hn hbound
    have := hsupply n hbound
    omega
  obtain ⟨htotal, hmentions⟩ := multiplyWidths_mentions
    (fun w hw => Operand.known_iff.1 (hwidths w hw)) (Operand.known_iff.1 hproduct)
    (fun n hn _ => hnew n hn) h
  refine ⟨Operand.known_iff.2 htotal, fun s hs n hn => hmentions s hs n ?_, fun n hn => ?_⟩
  · rcases Stm.mem_free.1 hn with hn | hn
    · exact List.mem_append_left _ (Exp.mem_mentions_of_mem_free hn)
    · exact List.mem_append_right _ hn
  · exact hnew n ((multiplyWidths_drawn h).1.2 n hn).1

/-- The widths are multiplied if there are tags enough for the partial products. -/
theorem exists_multiplyWidths_eq_ok {widths : List Operand} {product : Operand} {supply : Supply}
    (h : supply.next + widths.length ≤ Supply.lastTag) :
    ∃ stms total, multiplyWidths product widths supply
      = .ok (stms, total) ⟨supply.next + widths.length⟩ := by
  induction widths generalizing product supply with
  | nil => exact ⟨[], product, rfl⟩
  | cons w rest ih =>
    rw [List.length_cons] at h ⊢
    have hfresh : Supply.fresh "nesting_size" supply
        = .ok ⟨"nesting_size", supply.next⟩ ⟨supply.next + 1⟩ :=
      Supply.fresh_eq_ok_iff.2 ⟨by omega, rfl, rfl⟩
    have hnext : supply.next + (rest.length + 1) = supply.next + 1 + rest.length := by omega
    have hrest : ∃ stms total,
        multiplyWidths (.var ⟨"nesting_size", supply.next⟩) rest ⟨supply.next + 1⟩
          = .ok (stms, total) ⟨supply.next + 1 + rest.length⟩ := ih (hnext ▸ h)
    obtain ⟨stms, total, hrest⟩ := hrest
    rw [hnext]
    refine ⟨Stm.arith .mul ⟨"nesting_size", supply.next⟩ .i32 product w :: stms, total, ?_⟩
    exact bind_eq_ok_iff.2 ⟨_, _, hfresh, bind_eq_ok_iff.2 ⟨_, _, hrest, rfl⟩⟩

/-! ### What the kernel reads -/

namespace Level

variable {l : Level} {levels : List Level} {i : KernelInput}

/-- What reads a parameter of the level reads the parameter's array at the level's index first. -/
theorem reindex_of_input?_eq_some {r : RowInput} (h : l.input? i.array = some r) :
    l.reindex i = { i with array := r.array, indices := .var l.index :: i.indices } := by
  rw [reindex, h]

/-- What reads no parameter of the level is left as it is. -/
theorem reindex_of_input?_eq_none (h : l.input? i.array = none) : l.reindex i = i := by
  rw [reindex, h]

/-- What is read from a parameter of a level is read from the parameter's array, and everything else
is left alone. -/
theorem reindex_cases (l : Level) (i : KernelInput) :
    (∃ r ∈ l.inputs, r.param.name = i.array ∧
      l.reindex i = { i with array := r.array, indices := .var l.index :: i.indices }) ∨
    (∀ r ∈ l.inputs, r.param.name ≠ i.array) ∧ l.reindex i = i := by
  cases hinput : l.input? i.array with
  | none => exact Or.inr ⟨input?_eq_none_iff.1 hinput, reindex_of_input?_eq_none hinput⟩
  | some r =>
    obtain ⟨hr, hname⟩ := input?_eq_some hinput
    exact Or.inl ⟨r, hr, hname, reindex_of_input?_eq_some hinput⟩

/-- Seen from outside a level, an input still fills the same parameter. -/
@[simp] theorem param_reindex : (l.reindex i).param = i.param := by
  rcases l.reindex_cases i with ⟨r, -, -, heq⟩ | ⟨-, heq⟩ <;> rw [heq]

/-- What is read inside some levels, seen from outside all of them. -/
def flattenAll (levels : List Level) : List KernelInput := levels.foldr Level.flattenInputs []

/-- The outermost level contributes its own inputs, each at the level's index. What the levels
inside read is seen from outside it. -/
theorem mem_flattenAll_cons :
    i ∈ flattenAll (l :: levels) ↔
      (∃ r ∈ l.inputs, ⟨r.param, r.array, [.var l.index]⟩ = i) ∨
        ∃ j ∈ flattenAll levels, l.reindex j = i := by
  show i ∈ l.inputs.map _ ++ (flattenAll levels).map l.reindex ↔ _
  rw [List.mem_append, List.mem_map, List.mem_map]

/-- The parameters of the kernel are those of the levels. -/
theorem exists_mem_flattenAll_iff {b : Binder} :
    (∃ i ∈ flattenAll levels, i.param = b) ↔ ∃ l ∈ levels, ∃ r ∈ l.inputs, r.param = b := by
  induction levels with
  | nil => simp [flattenAll]
  | cons l levels ih =>
    constructor
    · rintro ⟨i, hi, rfl⟩
      rcases mem_flattenAll_cons.1 hi with ⟨r, hr, rfl⟩ | ⟨j, hj, rfl⟩
      · exact ⟨l, List.mem_cons_self .., r, hr, rfl⟩
      · obtain ⟨l', hl', r, hr, hparam⟩ := ih.1 ⟨j, hj, param_reindex.symm⟩
        exact ⟨l', List.mem_cons_of_mem _ hl', r, hr, hparam⟩
    · rintro ⟨l', hl', r, hr, rfl⟩
      rcases List.mem_cons.1 hl' with rfl | hl'
      · exact ⟨_, mem_flattenAll_cons.2 (Or.inl ⟨r, hr, rfl⟩), rfl⟩
      · obtain ⟨j, hj, hparam⟩ := ih.2 ⟨l', hl', r, hr, rfl⟩
        refine ⟨l.reindex j, mem_flattenAll_cons.2 (Or.inr ⟨j, hj, rfl⟩), ?_⟩
        rw [param_reindex, hparam]

/-- The kernel reads its arrays at indices of the levels. -/
theorem index_of_mem_flattenAll (hi : i ∈ flattenAll levels) {v : Operand} (hv : v ∈ i.indices) :
    ∃ l ∈ levels, v = .var l.index := by
  induction levels generalizing i with
  | nil => cases hi
  | cons l levels ih =>
    rcases mem_flattenAll_cons.1 hi with ⟨r, hr, rfl⟩ | ⟨j, hj, rfl⟩
    · exact ⟨l, List.mem_cons_self .., List.mem_singleton.1 hv⟩
    · rcases l.reindex_cases j with ⟨r, -, -, heq⟩ | ⟨-, heq⟩ <;> rw [heq] at hv
      · rcases List.mem_cons.1 hv with rfl | hv
        · exact ⟨l, List.mem_cons_self .., rfl⟩
        · obtain ⟨l', hl', heq⟩ := ih hj hv
          exact ⟨l', List.mem_cons_of_mem _ hl', heq⟩
      · obtain ⟨l', hl', heq⟩ := ih hj hv
        exact ⟨l', List.mem_cons_of_mem _ hl', heq⟩

/-- The array that a flattened input reads is handed in by one of the levels. -/
theorem input_of_mem_flattenAll (hi : i ∈ flattenAll levels) :
    ∃ l ∈ levels, ∃ r ∈ l.inputs, r.array = i.array := by
  induction levels generalizing i with
  | nil => cases hi
  | cons l levels ih =>
    rcases mem_flattenAll_cons.1 hi with ⟨r, hr, rfl⟩ | ⟨j, hj, rfl⟩
    · exact ⟨l, List.mem_cons_self .., r, hr, rfl⟩
    · rcases l.reindex_cases j with ⟨r, hr, -, heq⟩ | ⟨-, heq⟩ <;> rw [heq]
      · exact ⟨l, List.mem_cons_self .., r, hr, rfl⟩
      · obtain ⟨l', hl', r, hr, harray⟩ := ih hj
        exact ⟨l', List.mem_cons_of_mem _ hl', r, hr, harray⟩

/-- An array that the kernel reads is demanded outside all levels, or it is the index of one. -/
theorem array_of_mem_flattenAll {d : Demand}
    (harrays : ∀ l ∈ levels, ∀ r ∈ l.inputs, r.array ∉ l.bound) (hi : i ∈ flattenAll levels) :
    i.array ∈ (d.aroundAll levels).free ∨ ∃ l ∈ levels, i.array = l.index := by
  induction levels generalizing i with
  | nil => cases hi
  | cons l levels ih =>
    have hown : ∀ r ∈ l.inputs, r.array ∈ (d.aroundAll (l :: levels)).free := by
      intro r hr
      refine Demand.mem_aroundAll_cons.2 (Or.inl (mem_free_iff_mentions.2 ⟨?_, ?_⟩))
      · exact Or.inr (Or.inr (Or.inr ⟨r, hr, rfl⟩))
      · exact harrays l (List.mem_cons_self ..) r hr
    rcases mem_flattenAll_cons.1 hi with ⟨r, hr, rfl⟩ | ⟨j, hj, rfl⟩
    · exact Or.inl (hown r hr)
    · rcases l.reindex_cases j with ⟨r, hr, -, heq⟩ | ⟨hnone, heq⟩ <;> rw [heq]
      · exact Or.inl (hown r hr)
      · rcases ih (fun l' hl' => harrays l' (List.mem_cons_of_mem _ hl')) hj with
          hj | ⟨l', hl', heq⟩
        · by_cases hbound : j.array ∈ l.bound
          · -- No parameter of the level has this name, so its index has.
            rcases mem_bound.1 hbound with hindex | ⟨r, hr, hname⟩
            · exact Or.inr ⟨l, List.mem_cons_self .., hindex⟩
            · exact absurd hname (hnone r hr)
          · exact Or.inl (Demand.mem_aroundAll_cons.2 (Or.inr ⟨hj, hbound⟩))
        · exact Or.inr ⟨l', List.mem_cons_of_mem _ hl', heq⟩

end Level

/-! ### The kernel -/

namespace KernelNest

/-- The kernel that runs a body at the heart of a nest. -/
def kernel (nest : KernelNest) (body : Body) (width : Operand) (thread : Name) : Kernel where
  checks := nest.outermost.checks
  width
  thread
  space := nest.space
  inputs := nest.inputs.filter (·.param.name ∈ body.free)
  returns := nest.inner.pattern.map fun b => ⟨b.ty.row, List.range nest.depth⟩
  body

variable {nest : KernelNest} {body : Body} {width : Operand} {thread : Name}

/-- If a nest is flattened, its pattern is bound to the kernel of the nest, whose thread has a tag
drawn after those of the partial products. -/
theorem flatten_eq_ok {supply supply' : Supply} {flat : FlatKernel}
    (h : nest.flatten body supply = .ok flat supply') :
    ∃ width thread s,
      multiplyWidths nest.outermost.width nest.widths.tail supply = .ok (flat.prelude, width) s ∧
        thread.tag = s.next ∧ s.next ≤ supply'.next ∧
        flat.stm = ⟨nest.outermost.pattern, .kernel (nest.kernel body width thread)⟩ := by
  unfold flatten at h
  split at h
  · obtain ⟨⟨prelude, width⟩, s₁, hwidth, h⟩ := bind_eq_ok_iff.1 h
    obtain ⟨thread, hthread, rfl⟩ := bind_pure_eq_ok_iff.1 h
    obtain ⟨-, rfl, rfl⟩ := Supply.fresh_eq_ok_iff.1 hthread
    exact ⟨width, _, s₁, hwidth, rfl, Nat.le_succ _, rfl⟩
  · obtain ⟨u, s₁, hthrow, -⟩ := bind_eq_ok_iff.1 h
    cases hthrow

/-- A nest is made into a kernel if the body yields a value for each array and there are tags
enough: one for each level. -/
theorem exists_flatten_eq_ok {supply : Supply}
    (hlen : body.result.length = nest.inner.pattern.length)
    (hsupply : supply.next + nest.depth ≤ Supply.lastTag) :
    ∃ flat supply', nest.flatten body supply = .ok flat supply' := by
  have hwidths : nest.widths.tail.length + 1 = nest.depth := by
    simp [widths, Stack.depth]
  have hproduct : ∃ stms total, multiplyWidths nest.outermost.width nest.widths.tail supply
      = .ok (stms, total) ⟨supply.next + nest.widths.tail.length⟩ :=
    exists_multiplyWidths_eq_ok (by omega)
  obtain ⟨stms, total, hproduct⟩ := hproduct
  have hfresh : Supply.fresh "global_thread_index" ⟨supply.next + nest.widths.tail.length⟩
      = .ok ⟨"global_thread_index", supply.next + nest.widths.tail.length⟩
        ⟨supply.next + nest.widths.tail.length + 1⟩ :=
    Supply.fresh_eq_ok_iff.2 ⟨by show _ + _ < _; omega, rfl, rfl⟩
  unfold flatten
  rw [if_pos hlen.symm]
  exact ⟨_, _, bind_eq_ok_iff.2 ⟨_, _, hproduct, bind_pure_eq_ok_iff.2 ⟨_, hfresh, rfl⟩⟩⟩

/-- The indices of the kernel's space are those of the levels. -/
theorem mem_space {m : Name} :
    m ∈ (nest.kernel body width thread).space.map (·.index) ↔ ∃ l ∈ nest.toList, l.index = m := by
  show m ∈ (nest.toList.map _).map _ ↔ _
  rw [List.map_map, List.mem_map]
  rfl

/-- The kernel has just the flattened inputs whose parameters its body reads. -/
theorem mem_inputs_kernel {i : KernelInput} :
    i ∈ (nest.kernel body width thread).inputs ↔
      i ∈ Level.flattenAll nest.toList ∧ i.param.name ∈ body.free := by
  show i ∈ (Level.flattenAll nest.toList).filter _ ↔ _
  rw [List.mem_filter, decide_eq_true_eq]

/-- What the body reads and a level binds, the kernel binds. -/
theorem mem_names_kernel (hread : n ∈ body.free) {l : Level} (hl : l ∈ nest.toList)
    (hn : n ∈ l.bound) : n ∈ (nest.kernel body width thread).names := by
  rw [Kernel.names, List.mem_append, List.mem_cons]
  rcases Level.mem_bound.1 hn with rfl | ⟨r, hr, rfl⟩
  · exact Or.inl (Or.inr (mem_space.2 ⟨l, hl, rfl⟩))
  · obtain ⟨i, hi, hparam⟩ := Level.exists_mem_flattenAll_iff.2 ⟨l, hl, r, hr, rfl⟩
    refine Or.inr (List.mem_map.2 ⟨i, mem_inputs_kernel.2 ⟨hi, ?_⟩, by rw [hparam]⟩)
    rwa [hparam]

/-- The kernel reads its arrays at its own indices. -/
theorem index_mem_space {i : KernelInput} (hi : i ∈ (nest.kernel body width thread).inputs)
    (hn : .var n ∈ i.indices) : n ∈ (nest.kernel body width thread).space.map (·.index) := by
  obtain ⟨l, hl, heq⟩ := Level.index_of_mem_flattenAll (mem_inputs_kernel.1 hi).1 hn
  cases heq
  exact mem_space.2 ⟨l, hl, rfl⟩

/-- Each level of a nest is well scoped, and around all of them nothing is demanded that is bound in
the nest. -/
structure Closed (bound : NameSet) (d : Demand) (nest : KernelNest) : Prop where
  scope : ∀ l ∈ nest.toList, l.Scoped bound
  demand : ∀ n ∈ bound, n ∉ (d.aroundAll nest.toList).free
  widths : ∀ l ∈ nest.toList, l.width.Known bound

namespace Closed

variable {d : Demand}

/-- The types and the sizes of the kernel are known outside the nest. -/
theorem regular (h : nest.Closed bound d) : (nest.kernel body width thread).Regular bound where
  inputs i hi n hdim := by
    obtain ⟨l, hl, r, hr, hparam⟩ :=
      Level.exists_mem_flattenAll_iff.1 ⟨i, (mem_inputs_kernel.1 hi).1, rfl⟩
    refine (h.scope l hl).regular i.param (List.mem_append_left _ ?_) n hdim
    exact List.mem_map.2 ⟨r, hr, hparam⟩
  returns o ho n hdim := by
    -- A result is a row of an array of the innermost level.
    obtain ⟨b, hb, rfl⟩ := List.mem_map.1 ho
    refine (h.scope _ nest.inner_mem).regular b (List.mem_append_right _ hb) n ?_
    have hdrop : .var n ∈ b.ty.dims.drop 1 := by rwa [← Ty.dims_dropDims]
    exact List.mem_of_mem_drop hdrop
  space a ha n hsize := by
    obtain ⟨l, hl, rfl⟩ := List.mem_map.1 ha
    exact Operand.known_iff.1 (h.widths l hl) n hsize

/-- What the kernel mentions of the nest is an index that it reads as an array. -/
theorem mentions_index (h : nest.Closed bound d) (hwidth : width.Known bound) (hn : n ∈ bound)
    (hm : (nest.kernel body width thread).Mentions n) :
    (∃ l ∈ nest.toList, n = l.index) ∧ ∃ l ∈ nest.toList, ∃ r ∈ l.inputs, r.array = n := by
  rcases hm with hcheck | hw | ⟨a, ha, hsize⟩ | ⟨i, hi, rfl | hdim⟩ | ⟨o, ho, hdim⟩
  · -- The checks are those of the outermost level, so they are demanded.
    obtain ⟨rest, hlevels⟩ := nest.exists_toList_eq_cons
    have hmention : nest.outermost.Mentions n := Or.inr (Or.inl hcheck)
    have hfree : n ∈ nest.outermost.free := Level.mem_free_iff_mentions.2
      ⟨hmention, (h.scope _ nest.outermost_mem).mentions n hn hmention⟩
    refine absurd ?_ (h.demand n hn)
    rw [hlevels]
    exact Demand.mem_aroundAll_cons.2 (Or.inl hfree)
  · exact absurd hn (Operand.known_iff.1 hwidth n hw)
  · exact absurd hn (h.regular.space a ha n hsize)
  · -- An array is demanded around the nest, where nothing is, unless it is an index.
    have hi := (mem_inputs_kernel.1 hi).1
    rcases Level.array_of_mem_flattenAll (fun l hl => (h.scope l hl).arrays) hi with hfree | hindex
    · exact absurd hfree (h.demand _ hn)
    · exact ⟨hindex, Level.input_of_mem_flattenAll hi⟩
  · exact absurd hn (h.regular.inputs i hi n hdim)
  · exact absurd hn (h.regular.returns o ho n hdim)

/-- What the statements ask for of the nest, a level binds. -/
theorem exists_mem_bound (h : nest.Closed bound d) (hn : n ∈ bound) (hread : n ∈ d.free) :
    ∃ l ∈ nest.toList, n ∈ l.bound := by
  rcases Demand.mem_aroundAll_or_bound hread with hfree | hbound
  · exact absurd hfree (h.demand n hn)
  · exact hbound

end Closed

end KernelNest

end MapNest
