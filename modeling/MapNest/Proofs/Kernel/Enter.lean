import Mathlib.Data.List.Perm.Basic
import MapNest.Proofs.Kernel.Flatten
import MapNest.Proofs.Semantics.Run

/-!
# `MapNest.Proofs.Kernel.Enter`: one kernel for a nest, point by point

At a point of its space a kernel binds the indices of the space to the coordinates and reads each of
its parameters from an array outside, at some indices (`Kernel.enter`). A nest arrives at the same
point level by level, and each parameter is a row of what was bound on the way (`Level.enterAll`).
`KernelNest.flatten_enters` says that the body finds the same values either way.

`Level.reindex` is applied to a parameter once for every level around its own, from the inside out.
The induction is on these levels: entering the outermost of them makes a row of an outside array of
what the levels inside read under its parameter's name, and reindexing puts that row's number in
front of the indices. It asks of the nest that no index is read as an array. The arrays end up
outside the nest because every level reads arrays of the levels around it, or outside ones
(`KernelNest.Chained`).
-/

set_option autoImplicit false

namespace MapNest

/-! ### At a point of a kernel -/

/-- The part of an array that some numbers lead to, row by row. -/
def Value.part (v : Value) (numbers : List Nat) : Value := numbers.foldl Value.row v

/-- The number that an operand stands for at a point. An index of the space stands for its
coordinate. -/
def Operand.numberAt (indices : List Name) (point : List Nat) (ρ : Env) : Operand → Nat
  | .const c => (Value.scalar c).count
  | .var n => if n ∈ indices then point.getD (indices.idxOf n) 0 else (ρ n).count

/-- What a parameter of a kernel holds at a point, given what holds outside the kernel. -/
def KernelInput.read (i : KernelInput) (indices : List Name) (point : List Nat) (ρ : Env) : Value :=
  (ρ i.array).part (i.indices.map (Operand.numberAt indices point ρ))

/-- What holds at a point of a kernel, given what holds outside and the number of the point among
all points. -/
def Kernel.enter (k : Kernel) (number : Value) (point : List Nat) (ρ : Env) : Env :=
  ((ρ.bind k.thread number).bindAll (k.space.map (·.index)) (point.map .ofIndex)).bindAll
    (k.inputs.map (·.param.name)) (k.inputs.map (·.read (k.space.map (·.index)) point ρ))

/-- The indices of a space stand for the coordinates of the point. -/
theorem Operand.numberAt_var {indices : List Name} {point : List Nat} {ρ : Env}
    (hnodup : indices.Nodup) (hlen : indices.length = point.length) :
    List.Forall₂ (fun n i => Operand.numberAt indices point ρ (.var n) = i) indices point := by
  refine List.forall₂_iff_get.2 ⟨hlen, fun k hk hk' => ?_⟩
  have hmem : indices[k] ∈ indices := List.getElem_mem hk
  simp only [List.get_eq_getElem, numberAt, if_pos hmem, hnodup.idxOf_getElem k hk]
  simp [hk']

/-! ### At a point of some levels -/

namespace Level

variable {l : Level} {levels : List Level} {i : KernelInput} {n : Name} {ρ : Env}
  {point : List Nat}

/-- The indices of the levels and their parameters are all the names that the levels bind. -/
theorem perm_names :
    (levels.map (·.index) ++ levels.flatMap fun l => Pattern.names l.params).Perm
      (levels.flatMap names) := by
  rw [List.map_eq_flatMap]
  exact List.flatMap_append_perm ..

/-- What one level binds, those inside do not. -/
theorem not_mem_bound_of_nodup (hnodup : ((l :: levels).flatMap names).Nodup) (hn : n ∈ l.names) :
    ∀ l' ∈ levels, n ∉ l'.bound := by
  intro l' hl' hbound
  rw [List.flatMap_cons, List.nodup_append] at hnodup
  exact hnodup.2.2 n hn n (List.mem_flatMap.2 ⟨l', hl', mem_names.2 hbound⟩) rfl

/-- An index is the number of its level's iteration. -/
theorem enterAll_index {k : Nat} (hnodup : (levels.flatMap names).Nodup)
    (hmem : (l, k) ∈ levels.zip point) : enterAll levels point ρ l.index = .ofIndex k := by
  induction levels generalizing point ρ with
  | nil => cases hmem
  | cons l' levels ih =>
    cases point with
    | nil => cases hmem
    | cons k' point =>
      have hrest := hnodup
      rw [List.flatMap_cons, List.nodup_append] at hrest
      rcases List.mem_cons.1 hmem with heq | hmem
      · cases heq
        have hown := (List.nodup_cons.1 hrest.1).1
        rw [enterAll, enterAll_of_not_mem_bound
          (not_mem_bound_of_nodup hnodup (List.mem_cons_self ..)), enter_index hown]
      · exact ih hrest.2.1 hmem

/-- A parameter holds the part of an outside array that its indices lead to. -/
theorem enterAll_param {number : Operand → Nat} (hnodup : (levels.flatMap names).Nodup)
    (hindex : ∀ l ∈ levels, ∀ r ∈ l.inputs, ∀ l' ∈ levels, r.array ≠ l'.index)
    (hnumber : List.Forall₂ (fun l k => number (.var l.index) = k) levels point)
    (hi : i ∈ flattenAll levels) :
    enterAll levels point ρ i.param.name = (ρ i.array).part (i.indices.map number) := by
  induction hnumber generalizing i ρ with
  | nil => cases hi
  | @cons l k levels point hl _ ih =>
    have hrest := hnodup
    rw [List.flatMap_cons, List.nodup_append] at hrest
    rw [enterAll]
    rcases mem_flattenAll_cons.1 hi with ⟨r, hr, rfl⟩ | ⟨j, hj, rfl⟩
    · -- A parameter of the outermost level keeps its value further inside.
      have hown : r.param.name ∈ l.names :=
        List.mem_cons_of_mem _ (mem_names_params.2 ⟨r, hr, rfl⟩)
      rw [enterAll_of_not_mem_bound (not_mem_bound_of_nodup hnodup hown),
        enter_param (List.nodup_cons.1 hrest.1).2 hr, ← hl]
      rfl
    · -- A parameter further in is a part of what holds inside the outermost level.
      have hinner := ih (ρ := l.enter k ρ) hrest.2.1
        (fun l' hl' r hr l'' hl'' => hindex l' (List.mem_cons_of_mem _ hl') r hr l''
          (List.mem_cons_of_mem _ hl'')) hj
      rw [param_reindex, hinner]
      rcases l.reindex_cases j with ⟨r, hr, hname, heq⟩ | ⟨hnone, heq⟩ <;> rw [heq]
      · rw [← hname, enter_param (List.nodup_cons.1 hrest.1).2 hr, List.map_cons, hl]
        rfl
      · -- The array is no parameter of the outermost level, so it is none of its names.
        obtain ⟨l', hl', r, hr, harray⟩ := input_of_mem_flattenAll hj
        have hout : j.array ∉ l.bound := by
          rw [mem_bound, ← harray, not_or]
          refine ⟨hindex l' (List.mem_cons_of_mem _ hl') r hr l (List.mem_cons_self ..), ?_⟩
          rintro ⟨r', hr', hname⟩
          exact hnone r' hr' (hname.trans harray)
        rw [enter_of_not_mem_bound hout]

/-- The parameters of the kernel are those of the levels, in their order. -/
theorem map_param_flattenAll : (flattenAll levels).map (·.param) = levels.flatMap params := by
  induction levels with
  | nil => rfl
  | cons l levels ih =>
    show (l.inputs.map _ ++ (flattenAll levels).map l.reindex).map _ = _
    rw [List.map_append, List.map_map, List.map_map, List.flatMap_cons, ← ih, params]
    congr 1
    exact List.map_congr_left fun j _ => param_reindex

/-- If each of some levels reads parameters of the levels around it or names outside a set, then so
do all of them together: what they read is a parameter of the levels around them, or outside the
set. -/
theorem array_of_chained {bound : NameSet} {outer : List Level}
    (harrays : ∀ between l within, levels = between ++ l :: within → ∀ r ∈ l.inputs,
      r.array ∈ (outer ++ between).flatMap (fun l => Pattern.names l.params) ∨ r.array ∉ bound)
    (hi : i ∈ flattenAll levels) :
    i.array ∈ outer.flatMap (fun l => Pattern.names l.params) ∨ i.array ∉ bound := by
  induction levels generalizing outer i with
  | nil => cases hi
  | cons l levels ih =>
    have hown : ∀ r ∈ l.inputs,
        r.array ∈ outer.flatMap (fun l => Pattern.names l.params) ∨ r.array ∉ bound := by
      intro r hr
      simpa using harrays [] l levels rfl r hr
    rcases mem_flattenAll_cons.1 hi with ⟨r, hr, rfl⟩ | ⟨j, hj, rfl⟩
    · exact hown r hr
    · rcases l.reindex_cases j with ⟨r, hr, -, heq⟩ | ⟨hnone, heq⟩ <;> rw [heq]
      · exact hown r hr
      · have hinner : j.array ∈ (outer ++ [l]).flatMap (fun l => Pattern.names l.params) ∨
            j.array ∉ bound := by
          refine ih (fun between l' within hsplit r hr => ?_) hj
          simpa using harrays (l :: between) l' within (by rw [hsplit]; rfl) r hr
        refine hinner.imp_left fun hmem => ?_
        -- No parameter of the level has this name, so one further out has.
        rw [List.flatMap_append, List.mem_append] at hmem
        refine hmem.resolve_right fun hmem => ?_
        rw [List.flatMap_singleton] at hmem
        obtain ⟨r, hr, hname⟩ := mem_names_params.1 hmem
        exact hnone r hr hname

end Level

/-! ### At a point of the kernel of a nest -/

/-- No two indices or parameters of a nest agree, and each level reads parameters of the levels
around it, or arrays that the nest does not bind. -/
structure KernelNest.Chained (nest : KernelNest) : Prop where
  nodup : (nest.toList.flatMap Level.names).Nodup
  arrays : ∀ k l, nest.toList[k]? = some l → ∀ r ∈ l.inputs,
    r.array ∈ (nest.toList.take k).flatMap (fun l => Pattern.names l.params) ∨ r.array ∉ nest.bound

namespace KernelNest

variable {nest : KernelNest} {body : Body} {width : Operand} {thread n : Name}

/-- A nest binds what its levels bind. -/
theorem mem_bound : n ∈ nest.bound ↔ ∃ l ∈ nest.toList, n ∈ l.bound := by
  rw [bound, NameSet.mem_unions]
  constructor
  · rintro ⟨s, hs, hn⟩
    obtain ⟨l, hl, rfl⟩ := List.mem_map.1 hs
    exact ⟨l, hl, hn⟩
  · rintro ⟨l, hl, hn⟩
    exact ⟨l.bound, List.mem_map_of_mem hl, hn⟩

namespace Chained

/-- The indices and the parameters of a chained nest are all different. -/
theorem nodup_append (h : nest.Chained) : (nest.toList.map (·.index) ++
    nest.toList.flatMap fun l => Pattern.names l.params).Nodup :=
  Level.perm_names.nodup_iff.2 h.nodup

/-- No index is a parameter. -/
theorem index_ne_param (h : nest.Chained) {l l' : Level} (hl : l ∈ nest.toList)
    (hl' : l' ∈ nest.toList) (hn : n ∈ Pattern.names l'.params) : n ≠ l.index := by
  rintro rfl
  exact (List.nodup_append.1 h.nodup_append).2.2 _ (List.mem_map_of_mem hl) _
    (List.mem_flatMap.2 ⟨l', hl', hn⟩) rfl

/-- No level reads an index as an array. -/
theorem array_ne_index (h : nest.Chained) :
    ∀ l ∈ nest.toList, ∀ r ∈ l.inputs, ∀ l' ∈ nest.toList, r.array ≠ l'.index := by
  intro l hl r hr l' hl'
  obtain ⟨k, hk⟩ := List.getElem?_of_mem hl
  rcases h.arrays k l hk r hr with hparam | hout
  · obtain ⟨l'', hl'', hn⟩ := List.mem_flatMap.1 hparam
    exact h.index_ne_param hl' (List.mem_of_mem_take hl'') hn
  · rintro heq
    exact hout (mem_bound.2 ⟨l', hl', Level.mem_bound.2 (Or.inl heq)⟩)

/-- What the kernel reads is bound outside the nest. -/
theorem array_not_mem_bound (h : nest.Chained) {i : KernelInput}
    (hi : i ∈ Level.flattenAll nest.toList) : i.array ∉ nest.bound := by
  have hchain : i.array ∈ ([] : List Level).flatMap (fun l => Pattern.names l.params) ∨
      i.array ∉ nest.bound := by
    refine Level.array_of_chained (fun between l within hsplit r hr => ?_) hi
    have hk : nest.toList[between.length]? = some l := by simp [hsplit]
    have harray := h.arrays _ l hk r hr
    rwa [hsplit, List.take_left] at harray
  exact hchain.resolve_left List.not_mem_nil

end Chained

/-- What the kernel of a nest has in common with the nest. The names from a tag on are the
kernel's. -/
structure Flattened (nest : KernelNest) (body : Body) (next : Nat) (k : Kernel) : Prop where
  body_eq : k.body = body
  /-- The kernel has those of the nest's parameters that its body reads. -/
  params : k.inputs.map (·.param)
    = (nest.toList.flatMap Level.params).filter (·.name ∈ body.free)
  /-- It has each of them once. -/
  nodup : (k.inputs.map (·.param.name)).Nodup
  /-- It reads them from arrays outside the nest. -/
  arrays : ∀ i ∈ k.inputs, i.array ∉ nest.bound
  /-- At every point its body finds what it finds at the heart of the nest. -/
  values : ∀ (point : List Nat) (number : Value) (ρ ρ' : Env), point.length = nest.depth →
    (∀ n, n.tag < next → ρ' n = ρ n) →
    ∀ n ∈ body.free, k.enter number point ρ' n = Level.enterAll nest.toList point ρ n

/-- The kernel has the indices of the levels, the outermost first. -/
theorem space_index : (nest.kernel body width thread).space.map (·.index)
    = nest.toList.map (·.index) := by
  show (nest.toList.map _).map _ = _
  rw [List.map_map]
  rfl

/-- The kernel has those parameters of the levels that its body reads, in their order. -/
theorem params_kernel : (nest.kernel body width thread).inputs.map (·.param)
    = (nest.toList.flatMap Level.params).filter (·.name ∈ body.free) := by
  show ((Level.flattenAll nest.toList).filter _).map _ = _
  rw [← Level.map_param_flattenAll, List.filter_map]
  rfl

/-- The parameters of the kernel of a chained nest are all different. -/
theorem nodup_params_kernel (hc : nest.Chained) :
    ((nest.kernel body width thread).inputs.map (·.param.name)).Nodup := by
  have hall : (Pattern.names (nest.toList.flatMap Level.params)).Nodup := by
    rw [Pattern.names, List.map_flatMap]
    exact (List.nodup_append.1 hc.nodup_append).2.1
  have hsub : ((nest.kernel body width thread).inputs.map (·.param)).Sublist
      (nest.toList.flatMap Level.params) := params_kernel ▸ List.filter_sublist
  have hnames := List.Nodup.sublist (hsub.map Binder.name) hall
  rw [List.map_map] at hnames
  exact hnames

/-- At a point of the kernel, a parameter, an index and a name from outside have the values that
they have at the heart of the nest. -/
theorem enter_kernel (hc : nest.Chained) {next : Nat} (hthread : next ≤ thread.tag)
    (hfree : ∀ n ∈ body.free, n.tag < next)
    (harrays : ∀ l ∈ nest.toList, ∀ r ∈ l.inputs, r.array.tag < next) {point : List Nat}
    {number : Value} {ρ ρ' : Env} (hpoint : point.length = nest.depth)
    (hρ : ∀ n, n.tag < next → ρ' n = ρ n) (hn : n ∈ body.free) :
    (nest.kernel body width thread).enter number point ρ' n
      = Level.enterAll nest.toList point ρ n := by
  have hlen : nest.toList.length = point.length := by rw [Stack.length_toList, hpoint]
  have hindices : (nest.toList.map (·.index)).Nodup := (List.nodup_append.1 hc.nodup_append).1
  by_cases hparam : n ∈ (nest.kernel body width thread).inputs.map (·.param.name)
  · -- A parameter is read from an array that is as old as the nest.
    obtain ⟨i, hi, rfl⟩ := List.mem_map.1 hparam
    have hall := (mem_inputs_kernel.1 hi).1
    obtain ⟨l, hl, r, hr, harray⟩ := Level.input_of_mem_flattenAll hall
    have hnumber := Operand.numberAt_var (ρ := ρ') hindices (by rw [List.length_map, hlen])
    rw [List.forall₂_map_left_iff] at hnumber
    rw [Kernel.enter, Env.bindAll_map (f := fun i : KernelInput => i.param.name)
      (nodup_params_kernel hc) hi, KernelInput.read, space_index,
      hρ i.array (harray ▸ harrays l hl r hr)]
    exact (Level.enterAll_param hc.nodup hc.array_ne_index hnumber hall).symm
  · rw [Kernel.enter, Env.bindAll_of_not_mem hparam, space_index]
    by_cases hindex : n ∈ nest.toList.map (·.index)
    · -- An index has its place among the levels, and its coordinate the same in the point.
      have hfst : (nest.toList.zip point).map (fun x => x.1.index) = nest.toList.map (·.index) := by
        have hzip := congrArg (List.map Level.index) (List.map_fst_zip (Nat.le_of_eq hlen))
        rw [List.map_map] at hzip
        exact hzip
      have hsnd : (nest.toList.zip point).map (fun x => Value.ofIndex x.2)
          = point.map .ofIndex := by
        have hzip := congrArg (List.map Value.ofIndex) (List.map_snd_zip (Nat.le_of_eq hlen.symm))
        rw [List.map_map] at hzip
        exact hzip
      rw [← hfst] at hindex hindices ⊢
      obtain ⟨⟨l, k⟩, hmem, rfl⟩ := List.mem_map.1 hindex
      rw [← hsnd, Env.bindAll_map (f := fun x : Level × Nat => x.1.index) hindices hmem]
      exact (Level.enterAll_index hc.nodup hmem).symm
    · -- Neither the kernel nor the nest binds the name.
      rw [Env.bindAll_of_not_mem hindex, Env.bind_of_ne (fun heq => ?_), hρ n (hfree n hn),
        Level.enterAll_of_not_mem_bound]
      · -- What the nest binds and the body reads is an index or a parameter of the kernel.
        intro l hl hbound
        rcases Level.mem_bound.1 hbound with rfl | ⟨r, hr, rfl⟩
        · exact hindex (List.mem_map_of_mem hl)
        · obtain ⟨i, hi, hname⟩ := Level.exists_mem_flattenAll_iff.2 ⟨l, hl, r, hr, rfl⟩
          rw [← hname] at hn hparam
          exact hparam (List.mem_map.2 ⟨i, mem_inputs_kernel.2 ⟨hi, hn⟩, rfl⟩)
      · have hlt : thread.tag < next := by
          have hthread' : n = thread := heq
          exact hthread' ▸ hfree n hn
        omega

end KernelNest

/-! ### The theorem -/

namespace KernelNest

variable {nest : KernelNest} {body : Body} {supply : Supply}

/-- What the kernel of a nest computes at a point, its body computes from the same values as at the
heart of the nest. -/
theorem flatten_enters (hc : nest.Chained) (hlen : body.result.length = nest.inner.pattern.length)
    (hfree : ∀ n ∈ body.free, n.tag < supply.next)
    (harrays : ∀ l ∈ nest.toList, ∀ r ∈ l.inputs, r.array.tag < supply.next) :
    (supply.next + nest.depth ≤ Supply.lastTag →
      ∃ flat supply', nest.flatten body supply = .ok flat supply') ∧
    ∀ flat supply', nest.flatten body supply = .ok flat supply' →
      ∃ k, flat.stm = ⟨nest.outermost.pattern, .kernel k⟩ ∧
        nest.Flattened body supply.next k := by
  refine ⟨exists_flatten_eq_ok hlen, fun flat supply' h => ?_⟩
  obtain ⟨width, thread, s, hwidth, hthread, -, hstm⟩ := flatten_eq_ok h
  -- The number of the point has a tag from the supply, after those of the partial products.
  have hle : supply.next ≤ thread.tag := hthread ▸ (multiplyWidths_drawn hwidth).2.2
  refine ⟨nest.kernel body width thread, hstm, rfl, params_kernel, nodup_params_kernel hc, ?_, ?_⟩
  · exact fun i hi => hc.array_not_mem_bound (mem_inputs_kernel.1 hi).1
  · exact fun point number ρ ρ' hpoint hρ n hn => enter_kernel hc hle hfree harrays hpoint hρ hn

end KernelNest

/-! Three maps. The innermost one reads rows of a row of a row, and rows of the row that the
outermost one reads, past the map between them. The parameter `xs` itself is of no use to the body:

    map i < 2 (xs <- xss):
      map j < 2 (x <- xs, y <- ys):
        map k < 2 (z <- x, w <- xs):
          a = z + w
          b = a + y
-/

namespace Threefold

/-- Integers in some dimensions, each of size two. -/
def ints (rank : Nat) : Ty := .array .i32 (List.replicate rank (.ofInt32 2)) false

/-- The levels. -/
def nest : KernelNest :=
  ⟨[⟨[⟨⟨"os", 2⟩, ints 3⟩], [], .ofInt32 2, ⟨"i", 3⟩, [⟨⟨⟨"xs", 4⟩, ints 2⟩, ⟨"xss", 0⟩⟩]⟩,
      ⟨[⟨⟨"ps", 5⟩, ints 2⟩], [], .ofInt32 2, ⟨"j", 6⟩,
        [⟨⟨⟨"x", 7⟩, ints 1⟩, ⟨"xs", 4⟩⟩, ⟨⟨⟨"y", 8⟩, .scalar .i32⟩, ⟨"ys", 1⟩⟩]⟩],
    ⟨[⟨⟨"qs", 9⟩, ints 1⟩], [], .ofInt32 2, ⟨"k", 10⟩,
      [⟨⟨⟨"z", 11⟩, .scalar .i32⟩, ⟨"x", 7⟩⟩, ⟨⟨⟨"w", 12⟩, .scalar .i32⟩, ⟨"xs", 4⟩⟩]⟩⟩

/-- The body at the heart. -/
def body : Body :=
  .ofStms
    [Stm.arith .add ⟨"a", 13⟩ .i32 (.var ⟨"z", 11⟩) (.var ⟨"w", 12⟩),
      Stm.arith .add ⟨"b", 14⟩ .i32 (.var ⟨"a", 13⟩) (.var ⟨"y", 8⟩)]
    [.var ⟨"b", 14⟩]

/-- Each level reads rows of a level around it, or an array from outside. -/
theorem chained : nest.Chained where
  nodup := by decide
  arrays := by
    have hall : ∀ x ∈ nest.toList.zipIdx, ∀ r ∈ x.1.inputs,
        r.array ∈ (nest.toList.take x.2).flatMap (fun l => Pattern.names l.params) ∨
          r.array ∉ nest.bound := by
      decide
    exact fun k l hk => hall (l, k) (List.mem_zipIdx_iff_getElem?.2 hk)

end Threefold

/-- The kernel of these three levels computes at every point what its body computes at the heart of
them. -/
theorem KernelNest.flatten_enters_threefold :
    Threefold.nest.Chained ∧ Threefold.body.result.length = Threefold.nest.inner.pattern.length ∧
      ∃ flat supply' k, Threefold.nest.flatten Threefold.body ⟨15⟩ = .ok flat supply' ∧
        flat.stm = ⟨Threefold.nest.outermost.pattern, .kernel k⟩ ∧
        Threefold.nest.Flattened Threefold.body 15 k := by
  have hlen : Threefold.body.result.length = Threefold.nest.inner.pattern.length := rfl
  have hfree : ∀ n ∈ Threefold.body.free, n.tag < (⟨15⟩ : Supply).next := by decide
  have harrays : ∀ l ∈ Threefold.nest.toList, ∀ r ∈ l.inputs,
      r.array.tag < (⟨15⟩ : Supply).next := by
    decide
  obtain ⟨hsucceeds, hkernel⟩ :=
    KernelNest.flatten_enters Threefold.chained hlen hfree harrays
  obtain ⟨flat, supply', h⟩ := hsucceeds (by decide)
  obtain ⟨k, hstm, hflattened⟩ := hkernel flat supply' h
  exact ⟨Threefold.chained, rfl, flat, supply', k, h, hstm, hflattened⟩

end MapNest
