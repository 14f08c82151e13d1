import Mathlib.Data.List.Perm.Subperm
import MapNest.Proofs.Nest.Builds

/-!
# `MapNest.Proofs.Nest.Accounts`: no array is lost

The arrays of a level are bound in two places: by the map left behind, whose target says what it
still returns, and by the levels of the kernels that were built. A run moves arrays from the first
place to the second, and it draws new ones. `Arranges.accounts` is the balance of one run: at each
level, the arrays of both places together are those of the old target and the new ones, each as
often as before. What the map left behind still returns of the old target is unchanged.

`Progress.run` makes one attempt after the other, each with the targets and the tags that the ones
before it left. An attempt that fails leaves the targets alone. The balance of one attempt
(`Progress.accounted_attempt`) adds up to that of all of them (`Progress.accounted_run`).
-/

set_option autoImplicit false

namespace MapNest

/-! ### The balance of a run -/

/-- The outputs of a level, counted from the outermost. Beyond the levels there are none. -/
def Targets.outputsAt (ts : Targets) (k : Nat) : Target := ts.toList.getD k []

/-- A level that has an output is one of the levels. -/
theorem Targets.outputsAt_mem_toList {ts : Targets} {k : Nat} {o : Output}
    (h : o ∈ ts.outputsAt k) : ts.outputsAt k ∈ ts.toList := by
  unfold outputsAt at h ⊢
  rw [List.getD_eq_getElem?_getD] at h ⊢
  cases hk : ts.toList[k]? with
  | none =>
    rw [hk] at h
    cases h
  | some t => exact List.mem_of_getElem? hk

/-- The arrays of a level of a kernel, counted from the outermost. -/
def KernelNest.arraysAt (nest : KernelNest) (k : Nat) : Pattern :=
  (nest.toList.map (·.pattern)).getD k []

/-- The outermost level is the first. -/
theorem KernelNest.arraysAt_zero {nest : KernelNest} :
    nest.arraysAt 0 = nest.outermost.pattern := by
  obtain ⟨rest, hrest⟩ := nest.exists_toList_eq_cons
  rw [arraysAt, hrest]
  rfl

/-- The outermost target is the first. -/
theorem Targets.outputsAt_zero {ts : Targets} : ts.outputsAt 0 = ts.outermost := by
  obtain ⟨rest, hrest⟩ := ts.exists_toList_eq_cons
  rw [outputsAt, hrest]
  rfl

/-- Maps and targets are counted alike. -/
theorem Targets.outputsAt_eq {nesting : Nesting} {ts : Targets} (h : nesting.depth = ts.depth)
    {k : Nat} {e : Enclosing} {t : Target} (hk : (nesting.levels ts)[k]? = some (e, t)) :
    ts.outputsAt k = t := by
  rw [outputsAt, List.getD_eq_getElem?_getD, Nesting.getElem?_snd_levels h hk]
  rfl

/-- The balance of a level: its target before and after, what the kernel binds and what is new. -/
structure Balance (lo : Nat) (t t' : Target) (arrays fresh : Pattern) : Prop where
  /-- What the map left behind and the kernel bind is what the map bound before, and what is new. -/
  perm : (Target.pattern t' ++ arrays).Perm (Target.pattern t ++ fresh)
  /-- Those of the old outputs that the map left behind still returns are unchanged. -/
  stays : (t'.filter (·.binder.name.tag < lo)).Subperm t

namespace Balance

variable {lo hi : Nat} {t t' added : Target} {arrays arrays' fresh : Pattern}

/-- Beyond the levels there is nothing to balance. -/
theorem nil : Balance lo [] [] [] [] := ⟨.refl _, .refl _⟩

/-- The order in which the kernel binds its arrays does not matter. -/
theorem of_perm (h : Balance lo t t' arrays fresh) (hperm : arrays'.Perm arrays) :
    Balance lo t t' arrays' fresh :=
  ⟨(hperm.append_left _).trans h.perm, h.stays⟩

/-- A new output is none of the old ones. -/
theorem filter_append_added {top : Nat} (hle : lo ≤ top)
    (hadded : Drawn top hi (Pattern.names (Target.pattern added))) :
    (t ++ added).filter (·.binder.name.tag < lo) = t.filter (·.binder.name.tag < lo) := by
  have hnone : added.filter (·.binder.name.tag < lo) = [] := by
    refine List.filter_eq_nil_iff.2 fun o ho => ?_
    have := hadded.2 _ (Target.mem_names_pattern.2 ⟨o, ho, rfl⟩)
    simp only [decide_eq_true_eq]
    omega
  rw [List.filter_append, hnone, List.append_nil]

/-- The innermost level takes over what is selected, and gets new outputs. -/
theorem of_restore {s : Selection} {top : Nat} (hrestore : (s.restore s.targets.inner).Perm t)
    (hle : lo ≤ top) (hadded : Drawn top hi (Pattern.names (Target.pattern added))) :
    Balance lo t (s.restore added) (Target.pattern s.targets.inner) (Target.pattern added) := by
  constructor
  · refine List.perm_iff_count.2 fun b => ?_
    have hcount := (hrestore.map (·.binder)).count_eq b
    simp only [Selection.restore, Target.pattern, List.map_append, List.count_append] at hcount ⊢
    omega
  · -- Only what was set aside is old, and that is part of the old target.
    have hpassed : (s.passed.map Passed.output).Subperm t :=
      (List.sublist_append_right ..).subperm.trans hrestore.subperm
    have hold : (s.restore added).filter (·.binder.name.tag < lo)
        |>.Perm ((s.passed.map Passed.output).filter (·.binder.name.tag < lo)) := by
      rw [← filter_append_added (t := s.passed.map Passed.output) hle hadded]
      exact List.perm_append_comm.filter _
    exact hold.subperm.trans ((List.filter_sublist.subperm).trans hpassed)

/-- A level around others divides its outputs, and gets new ones. -/
theorem of_divides {inner : Pattern} {d : Division} {new : List Taken} {top : Nat}
    (hdivides : d.Divides inner t) (hle : lo ≤ top)
    (hadded : Drawn top hi (Pattern.names (Target.pattern added))) :
    Balance lo t (d.kept ++ added) ((d.taken ++ new).map (·.binder))
      (new.map (·.binder) ++ Target.pattern added) := by
  constructor
  · refine List.perm_iff_count.2 fun b => ?_
    have hcount := hdivides.perm.count_eq b
    simp only [Target.pattern, List.map_append, List.count_append] at hcount ⊢
    omega
  · rw [filter_append_added hle hadded]
    exact (List.filter_sublist.trans hdivides.kept).subperm

/-- The balances of two runs add up. -/
theorem trans {mid : Nat} {t'' : Target} {fresh' : Pattern} (h : Balance lo t t' arrays fresh)
    (h' : Balance mid t' t'' arrays' fresh') (hle : lo ≤ mid) :
    Balance lo t t'' (arrays ++ arrays') (fresh ++ fresh') := by
  constructor
  · refine List.perm_iff_count.2 fun b => ?_
    have hcount := h.perm.count_eq b
    have hcount' := h'.perm.count_eq b
    simp only [List.count_append] at hcount hcount' ⊢
    omega
  · -- What is older than the first bound is older than the second.
    have hold : (t''.filter (·.binder.name.tag < mid)).filter (·.binder.name.tag < lo)
        = t''.filter (·.binder.name.tag < lo) := by
      rw [List.filter_filter]
      refine List.filter_congr fun o _ => ?_
      simp only [decide_eq_decide, Bool.and_eq_decide, decide_eq_true_eq]
      omega
    rw [← hold]
    exact (h'.stays.filter _).trans h.stays

end Balance

namespace Arranges

variable {scope : Scope} {s : Selection} {bound : NameSet} {levels : List (Enclosing × Target)}
  {lo hi : Nat} {built : Built}

/-- Putting the arrays of all levels into another order loses none. -/
theorem perm_arraysAt_permute {nest : KernelNest} {order : List Nat} {len : Nat}
    (hlength : ∀ l ∈ nest.toList, l.pattern.length = len) (horder : order.Perm (List.range len))
    (k : Nat) :
    (KernelNest.arraysAt (nest.map (Level.permute order)) k).Perm (nest.arraysAt k) := by
  rw [KernelNest.arraysAt, KernelNest.arraysAt, Stack.toList_map, List.map_map]
  simp only [List.getD_eq_getElem?_getD, List.getElem?_map]
  cases hk : nest.toList[k]? with
  | none => exact .refl _
  | some l =>
    have hl := hlength l (List.mem_of_getElem? hk)
    exact Pattern.permute_perm (hl ▸ horder)

/-- The balance of a run: no array of any level is lost, and the new ones are distinct. -/
theorem balance (h : Arranges scope s bound levels lo hi built) :
    ∃ fresh : Nat → Pattern,
      (∀ k, Balance lo ((levels.map (·.2)).getD k []) (built.targets.outputsAt k)
        (built.nest.arraysAt k) (fresh k)) ∧
      Fresh lo hi ((List.range levels.length).flatMap fun k => Pattern.names (fresh k)) := by
  induction h with
  | @innermost position e t captures lo hi hrestore hcloses hadded htyped =>
    -- New are the outputs of the captures.
    refine ⟨fun k => if k = 0 then Target.pattern (captures.flatMap (·.added)) else [],
      fun k => ?_, by simpa using hadded.fresh⟩
    cases k with
    | zero => exact Balance.of_restore hrestore (Nat.le_refl _) hadded
    | succ k => exact .nil
  | @enclose within position e t built d new captures lo mid top hi hwithin hdivides hnew hdrawn hle
      hcloses hadded htyped ih =>
    -- New at this level are the outputs for arrays that none took, and those of the captures.
    obtain ⟨fresh, hbalance, hfresh⟩ := ih
    have hmid := hwithin.builds.le
    refine ⟨fun k => match k with
      | 0 => new.map (·.binder) ++ Target.pattern (captures.flatMap (·.added))
      | k + 1 => fresh k, fun k => ?_, ?_⟩
    · cases k with
      | zero => exact Balance.of_divides hdivides (Nat.le_trans hmid hle) hadded
      | succ k =>
        -- The levels inside are those built before, with their arrays in another order.
        have horder := hdivides.perm_order hnew
        rw [hwithin.length_pattern _ built.nest.outermost_mem] at horder
        exact (hbalance k).of_perm (perm_arraysAt_permute hwithin.length_pattern horder k)
    · -- All that is new further inside was drawn before what is new here.
      have hhere : Fresh mid hi (Pattern.names (new.map (·.binder) ++
          Target.pattern (captures.flatMap (·.added)))) := by
        rw [Pattern.names, List.map_append]
        exact hdrawn.fresh.append hadded.fresh hle hcloses.le
      have hall := hfresh.append hhere hmid (Nat.le_trans hle hcloses.le)
      rw [List.length_cons, List.range_succ_eq_map, List.flatMap_cons, List.flatMap_map]
      exact hall.perm List.perm_append_comm

/-- The balance of one level. -/
theorem balanceAt (h : Arranges scope s bound levels lo hi built) {k : Nat} {e : Enclosing}
    {t : Target} (hk : levels[k]? = some (e, t)) :
    ∃ fresh, Balance lo t (built.targets.outputsAt k) (built.nest.arraysAt k) fresh ∧
      Fresh lo hi (Pattern.names fresh) := by
  obtain ⟨fresh, hbalance, hfresh⟩ := h.balance
  have hlt : k ∈ List.range levels.length :=
    List.mem_range.2 (List.getElem?_eq_some_iff.1 hk).1
  have hlevel := hbalance k
  rw [List.getD_eq_getElem?_getD, List.getElem?_map, hk] at hlevel
  exact ⟨fresh k, hlevel, (List.nodup_flatMap.1 hfresh.nodup).1 k hlt,
    fun n hn => hfresh.tags n (List.mem_flatMap.2 ⟨k, hlt, hn⟩)⟩

/-- At each level, no name is bound twice by the map left behind and the kernel together. -/
theorem nodup_outputsAt (h : Arranges scope s bound levels lo hi built) {k : Nat} {e : Enclosing}
    {t : Target} (hk : levels[k]? = some (e, t)) (hnodup : (Pattern.names (Target.pattern t)).Nodup)
    (htags : ∀ o ∈ t, o.binder.name.tag < lo) :
    (Pattern.names (Target.pattern (built.targets.outputsAt k) ++
      built.nest.arraysAt k)).Nodup := by
  obtain ⟨fresh, hbalance, hfresh⟩ := h.balanceAt hk
  rw [Pattern.names, (hbalance.perm.map (·.name)).nodup_iff, List.map_append]
  refine hfresh.nodup_append hnodup fun n hn => ?_
  obtain ⟨o, ho, rfl⟩ := Target.mem_names_pattern.1 hn
  exact htags o ho

/-- An array that the kernel binds at a level was one of the map's, or it is new. -/
theorem mem_arraysAt (h : Arranges scope s bound levels lo hi built) {k : Nat} {e : Enclosing}
    {t : Target} (hk : levels[k]? = some (e, t)) {n : Name}
    (hn : n ∈ Pattern.names (built.nest.arraysAt k)) :
    n ∈ Pattern.names (Target.pattern t) ∨ lo ≤ n.tag := by
  obtain ⟨fresh, hbalance, hfresh⟩ := h.balanceAt hk
  have hmem : n ∈ Pattern.names (Target.pattern t ++ fresh) := by
    refine (hbalance.perm.map (·.name)).subset ?_
    rw [List.map_append]
    exact List.mem_append_right _ hn
  rw [Pattern.names_append] at hmem
  rcases List.mem_append.1 hmem with hn | hn
  · exact Or.inl hn
  · exact Or.inr (hfresh.tags n hn).1

end Arranges

/-! ### One attempt after the other -/

/-- Statements to be moved, with the maps around them and the types of the names in scope. -/
structure Trial where
  /-- The types of the names in scope. -/
  scope : Scope
  /-- The maps around the statements. -/
  nesting : Nesting
  /-- The statements. -/
  stms : List Stm

/-- Where some attempts stand. -/
structure Progress where
  /-- What the maps still have to produce. -/
  targets : Targets
  /-- Where fresh names come from. -/
  supply : Supply
  /-- The nests built so far, oldest first. -/
  nests : List KernelNest := []

namespace Progress

/-- Makes one more attempt. If it ends without a nest, only the names that it drew are gone. -/
def attempt (p : Progress) (t : Trial) : Progress :=
  match (Selection.ofStms p.targets t.stms).kernelNest t.nesting
      { supply := p.supply, scope := t.scope } with
  | .ok (targets, nest) st => ⟨targets, st.supply, p.nests ++ [nest]⟩
  | .error _ st => { p with supply := st.supply }

/-- Makes one attempt after the other. -/
def run (p : Progress) (trials : List Trial) : Progress := trials.foldl attempt p

end Progress

/-! ### No tag is given back -/

/-- The reason is any but that there are not as many targets as maps. -/
def Stop.Matched : Stop → Prop
  | .failed (.depthMismatch _ _) => False
  | _ => True

/-- Handing in a value draws at most one name. It stops if the name of the value has no type. -/
theorem grows_capture {width : Operand} {carrier? : Name → Option Binder} {n : Name} :
    AttemptM.Grows Stop.Matched (capture width carrier? n) := by
  refine (AttemptM.Grows.typeOf trivial).bind fun ty => ?_
  cases carrier? n with
  | some b => exact .pure
  | none => exact (AttemptM.Grows.freshBinder trivial).bind fun _ => .pure

/-- Closing a level gives no tag back, not even if the level is refused. -/
theorem Frame.grows_close {f : Frame} {bound : NameSet} {demand : Demand} :
    AttemptM.Grows Stop.Matched (f.close bound demand) := by
  refine (AttemptM.Grows.mapM (fun _ => grows_capture) _).bind fun captures => ?_
  dsimp only
  split
  · exact .refuse trivial
  · exact .pure

/-- Putting a level around those built so far gives no tag back. -/
theorem Built.grows_enclose {built : Built} {bound : NameSet} {position : Nat} {e : Enclosing}
    {t : Target} : AttemptM.Grows Stop.Matched (built.enclose bound position e t) := by
  have hnew : ∀ x, AttemptM.Grows Stop.Matched (newOutput e.level.width x) := fun _ =>
    (AttemptM.Grows.freshBinder trivial).bind fun _ => .pure
  exact (AttemptM.Grows.mapM hnew _).bind fun _ => Frame.grows_close.bind fun _ => .pure

/-- Putting levels around those built so far gives no tag back. -/
theorem Built.grows_encloseAll {built : Built} {bound : NameSet} {position : Nat}
    {levels : List (Enclosing × Target)} :
    AttemptM.Grows Stop.Matched (built.encloseAll bound position levels) := by
  induction levels generalizing position with
  | nil => exact .pure
  | cons x levels ih => exact ih.bind fun _ => Built.grows_enclose

/-- Building a kernel nest gives no tag back. If there is a target for each map, it does not stop
because there were too few or too many. -/
theorem Selection.grows_kernelNest (s : Selection) (nesting : Nesting) :
    AttemptM.Grows (fun e => nesting.depth = s.targets.depth → e.Matched)
      (s.kernelNest nesting) := by
  have hbuild : AttemptM.Grows Stop.Matched (do
      let inner ← s.innermost nesting.bound nesting.outer.length nesting.inner
      let built ← inner.encloseAll nesting.bound 0 (nesting.outer.zip s.targets.outer)
      return (built.targets, built.nest)) :=
    (Frame.grows_close.bind fun _ => .pure).bind fun _ =>
      Built.grows_encloseAll.bind fun _ => .pure
  unfold kernelNest
  split
  · exact hbuild.mono fun _ he _ => he
  · rename_i hdepth
    exact (AttemptM.Grows.fail fun h => absurd h hdepth).bind fun _ =>
      hbuild.mono fun _ he _ => he

/-! ### The balance of many attempts -/

/-- The targets, nests and names of some progress, set against those before: the nests that were
built in between, and the arrays that are new at each level. -/
structure Progress.Accounted (p q : Progress) (built : List KernelNest) (fresh : Nat → Pattern) :
    Prop where
  /-- There are as many levels as before. -/
  depth : q.targets.depth = p.targets.depth
  nests : q.nests = p.nests ++ built
  depths : ∀ nest ∈ built, nest.depth = p.targets.depth
  le : p.supply.next ≤ q.supply.next
  /-- No array of any level is lost. -/
  balance : ∀ k, Balance p.supply.next (p.targets.outputsAt k) (q.targets.outputsAt k)
    (built.flatMap (·.arraysAt k)) (fresh k)
  /-- What is new at one level is new at no other. -/
  distinct : Fresh p.supply.next q.supply.next
    ((List.range p.targets.depth).flatMap fun k => Pattern.names (fresh k))

namespace Progress

variable {p q r : Progress} {built built' : List KernelNest} {fresh fresh' : Nat → Pattern}

/-- An attempt that builds nothing has nothing to account for but the names that it drew. -/
theorem Accounted.of_supply {supply : Supply} (h : p.supply.next ≤ supply.next) :
    Accounted p { p with supply } [] (fun _ => []) where
  depth := rfl
  nests := (List.append_nil _).symm
  depths := by simp
  le := h
  balance _ := ⟨.refl _, List.filter_sublist.subperm⟩
  distinct := by
    have hnone : (List.range p.targets.depth).flatMap (fun _ => Pattern.names []) = [] :=
      List.flatMap_eq_nil_iff.2 fun _ _ => rfl
    exact hnone ▸ .nil

/-- The accounts of two stretches add up. -/
theorem Accounted.trans (h : Accounted p q built fresh) (h' : Accounted q r built' fresh') :
    Accounted p r (built ++ built') (fun k => fresh k ++ fresh' k) where
  depth := h'.depth.trans h.depth
  nests := by rw [h'.nests, h.nests, List.append_assoc]
  depths nest hnest := by
    rcases List.mem_append.1 hnest with hnest | hnest
    · exact h.depths nest hnest
    · exact (h'.depths nest hnest).trans h.depth
  le := Nat.le_trans h.le h'.le
  balance k := by
    rw [List.flatMap_append]
    exact (h.balance k).trans (h'.balance k) h.le
  distinct := by
    -- First all levels of the one, then all of the other: put together level by level.
    have hboth := h.distinct.append (h.depth ▸ h'.distinct) h.le h'.le
    refine hboth.perm ((List.flatMap_append_perm ..).trans ?_)
    simp only [Pattern.names, List.map_append]
    exact .refl _

/-- An attempt loses no array and binds none twice, whether it succeeds or not. -/
theorem accounted_attempt (p : Progress) (t : Trial) :
    ∃ built fresh, Accounted p (p.attempt t) built fresh := by
  unfold attempt
  have hgrows := ((Selection.ofStms p.targets t.stms).grows_kernelNest t.nesting).next_le
    { supply := p.supply, scope := t.scope }
  cases h : (Selection.ofStms p.targets t.stms).kernelNest t.nesting
      { supply := p.supply, scope := t.scope } with
  | error e st =>
    -- Nothing is built, and the targets are as before.
    rw [h] at hgrows
    exact ⟨[], _, .of_supply hgrows⟩
  | ok result st =>
    obtain ⟨targets, nest⟩ := result
    obtain ⟨hdepth, demand, harranges⟩ := Selection.arranges_of_kernelNest_eq_ok h
    obtain ⟨fresh, hbalance, hfresh⟩ := harranges.balance
    have hlevels := Nesting.length_levels hdepth
    have hle := harranges.builds.le
    rw [Nesting.map_snd_levels hdepth] at hbalance
    rw [hlevels, hdepth] at hfresh
    refine ⟨[nest], fresh, ?_, rfl, ?_, hle, fun k => ?_, hfresh⟩
    · exact (harranges.builds.depth_targets.trans hlevels).trans hdepth
    · intro nest' hnest
      rw [List.mem_singleton.1 hnest]
      exact (harranges.builds.depth_nest.trans hlevels).trans hdepth
    · rw [List.flatMap_singleton]
      exact hbalance k

/-- No array is lost and none is bound twice over many attempts. -/
theorem accounted_run (p : Progress) (trials : List Trial) :
    ∃ built fresh, Accounted p (p.run trials) built fresh := by
  induction trials generalizing p with
  | nil => exact ⟨[], _, .of_supply (Nat.le_refl _)⟩
  | cons t trials ih =>
    obtain ⟨built, fresh, hfirst⟩ := p.accounted_attempt t
    obtain ⟨built', fresh', hrest⟩ := ih (p.attempt t)
    exact ⟨_, _, hfirst.trans hrest⟩

/-- What holds after some attempts that began with some targets and a supply above their arrays. -/
structure Balanced (targets : Targets) (supply : Supply) (p : Progress) : Prop where
  /-- No level comes or goes. -/
  depth : p.targets.depth = targets.depth
  depths : ∀ nest ∈ p.nests, nest.depth = targets.depth
  /-- Every map returns a value for each of its arrays. The type of a target carries this already:
  `Target.ofPattern` checks it once, and then a value is listed with its array. -/
  lengths : ∀ t ∈ p.targets.toList, (Target.values t).length = (Target.pattern t).length
  /-- At each level, the maps left behind and the nests bind the arrays of the beginning and new
  ones, each as often as before. All new ones are distinct. -/
  balance : ∃ fresh : Nat → Pattern,
    (∀ k, (Target.pattern (p.targets.outputsAt k) ++ p.nests.flatMap (·.arraysAt k)).Perm
      (Target.pattern (targets.outputsAt k) ++ fresh k)) ∧
    Fresh supply.next p.supply.next
      ((List.range targets.depth).flatMap fun k => Pattern.names (fresh k))
  /-- An array of the beginning that is still in its target keeps its type and its value. -/
  stays : ∀ k, ((p.targets.outputsAt k).filter
    (·.binder.name ∈ Pattern.names (Target.pattern (targets.outputsAt k)))).Subperm
      (targets.outputsAt k)

/-- Whatever is attempted, no output is lost and none is produced twice. -/
theorem balanced_run {targets : Targets} {supply : Supply}
    (htags : ∀ t ∈ targets.toList, ∀ o ∈ t, o.binder.name.tag < supply.next)
    (trials : List Trial) : (run ⟨targets, supply, []⟩ trials).Balanced targets supply := by
  obtain ⟨built, fresh, h⟩ := accounted_run ⟨targets, supply, []⟩ trials
  have hnests := h.nests
  rw [List.nil_append] at hnests
  refine ⟨h.depth, hnests ▸ h.depths, ?_, ⟨fresh, ?_, h.distinct⟩, fun k => ?_⟩
  · intro t _
    simp [Target.values, Target.pattern]
  · exact fun k => hnests ▸ (h.balance k).perm
  · -- An array of the beginning is below the supply of the beginning.
    refine List.Subperm.trans (List.Sublist.subperm ?_) (h.balance k).stays
    refine List.monotone_filter_right _ fun o ho => ?_
    obtain ⟨o', ho', hname⟩ := Target.mem_names_pattern.1 (of_decide_eq_true ho)
    have htag := htags _ (Targets.outputsAt_mem_toList ho') o' ho'
    exact decide_eq_true (hname ▸ htag)

end Progress

/-! A nest of two maps around two statements that are moved one after the other. In between, an
attempt fails because it sees one map only:

    map i < 2:        ys <- b
      map j < 2:      b <- a, c <- d
        a = i + j
        d = a + j
-/

namespace Twice

/-- What the maps produce. -/
def targets : Targets :=
  ⟨[[⟨⟨⟨"ys", 2⟩, .array .i32 [.ofInt32 2, .ofInt32 2] false⟩, .var ⟨"b", 3⟩⟩]],
    [⟨⟨⟨"b", 3⟩, .array .i32 [.ofInt32 2] false⟩, .var ⟨"a", 5⟩⟩,
      ⟨⟨⟨"c", 4⟩, .array .i32 [.ofInt32 2] false⟩, .var ⟨"d", 6⟩⟩]⟩

/-- The outer map. -/
def outer : Enclosing := ⟨∅, ⟨[], [], .ofInt32 2, ⟨"i", 0⟩, []⟩⟩

/-- The inner map, with the names that its body binds before. -/
def inner (letBound : NameSet) : Enclosing := ⟨letBound, ⟨[], [], .ofInt32 2, ⟨"j", 1⟩, []⟩⟩

/-- The attempts. -/
def trials : List Trial :=
  [⟨∅, ⟨[outer], inner ∅⟩, [Stm.arith .add ⟨"a", 5⟩ .i32 (.var ⟨"i", 0⟩) (.var ⟨"j", 1⟩)]⟩,
    ⟨∅, ⟨[], inner ∅⟩, [Stm.arith .add ⟨"d", 6⟩ .i32 (.var ⟨"a", 5⟩) (.var ⟨"j", 1⟩)]⟩,
    ⟨(∅ : Scope).insert ⟨⟨"a", 5⟩, .scalar .i32⟩, ⟨[outer], inner {⟨"a", 5⟩}⟩,
      [Stm.arith .add ⟨"d", 6⟩ .i32 (.var ⟨"a", 5⟩) (.var ⟨"j", 1⟩)]⟩]

/-- Where the attempts end. -/
def progress : Progress := Progress.run ⟨targets, ⟨7⟩, []⟩ trials

end Twice

/-- Both nests are built, and the attempt in between changes nothing. -/
theorem Progress.balanced_run_twice :
    (∀ t ∈ Twice.targets.toList, ∀ o ∈ t, o.binder.name.tag < 7) ∧
      (Twice.progress.nests.length = 2 ∧ Twice.progress.supply.next = 10) ∧
      Twice.progress.Balanced Twice.targets ⟨7⟩ :=
  ⟨by decide, ⟨rfl, rfl⟩, Progress.balanced_run (by decide) Twice.trials⟩

end MapNest
