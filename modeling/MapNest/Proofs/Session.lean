import MapNest.Proofs.Complete
import MapNest.Proofs.Kernel.Reduce
import MapNest.Proofs.Nest.Accounts
import MapNest.Session

/-!
# `MapNest.Proofs.Session`: walking through a nest

A walk holds two stacks, the maps that it is in and what they still have to produce, and statements
may be moved only while both have one depth. `Move` lists what a walk does next, `Session.make` does
it, and `Session.walk` does one move after the other.

`Session.Outcome` says what a move may come to:

* No tag is given back and nothing noted is lost, and stacks of one depth stay so
  (`Session.Later`).
* A move that stops leaves all else as it was, so a walk may go on after it.
* The reason is never that the stacks differ in depth, unless they did before.

`Session.make_outcome` shows this of each move. Those that attempt something rest on what attempts
do to the supply, whether they succeed or not: `grows_distribute`, `grows_interchange` and
`LoopStm.grows_interchangeAll`. `Session.walk_later` and `Session.walk_outcome` are the inductions
over a walk, and `Session.plan_mismatched_iff` says when the depths do stop a plan.
-/

set_option autoImplicit false

namespace MapNest

/-! ### Attempts give no tag back -/

/-- Computations that only draw names stop only if there are no tags left. -/
theorem AttemptM.Grows.of_draws {α : Type} {stop : Stop → Prop} {act : FreshM α} {k : Nat}
    (h : Draws Supply.next act k) (hstop : stop (.failed .overflow)) :
    AttemptM.Grows stop (liftM act : AttemptM α) :=
  .lift h.next_le fun _ _ _ hact => h.eq_overflow hact ▸ hstop

section Kernels

variable {settings : Settings} {nesting : Nesting} {targets : Targets} {stms : List Stm}

/-- Making a kernel gives no tag back, even if the body yields too few values or too many. -/
theorem KernelNest.grows_flatten {nest : KernelNest} {body : Body} :
    AttemptM.Grows Stop.Matched (liftM (nest.flatten body) : AttemptM FlatKernel) := by
  by_cases hlen : body.result.length = nest.inner.pattern.length
  · exact .of_draws (flatten_draws hlen) trivial
  · -- The values are counted before any name is drawn.
    have herror : ∀ s, nest.flatten body s = .error
        (.arityMismatch .kernelBody nest.inner.pattern.length body.result.length) s := by
      intro s
      unfold flatten
      rw [if_neg (Ne.symm hlen)]
      rfl
    refine .lift (fun s => ?_) fun s e s' h => ?_
    · rw [herror s]
      exact Nat.le_refl _
    · rw [herror s] at h
      cases h
      exact trivial

/-- Reducing a kernel draws nothing. -/
theorem Stm.grows_reduce {s : Stm} : AttemptM.Grows Stop.Matched s.reduce := by
  unfold reduce
  cases s.exp with
  | kernel k =>
    have hop : AttemptM.Grows Stop.Matched (AttemptM.ofExcept k.wholeOp?) := by
      rcases k.wholeOp?_cases with ⟨h, -⟩ | ⟨input, inner, -, h | ⟨h, -⟩⟩
      · rw [h]
        exact .pure
      · rw [h]
        exact .pure
      · rw [h]
        exact .fail trivial
    refine hop.bind fun op? => ?_
    cases op? with
    | none => exact .pure
    | some op => exact AttemptM.Grows.note.bind fun _ => .pure
  | _ => exact .pure

/-- Finishing a kernel gives no tag back, whatever the settings ask for. -/
theorem grows_finish {kernel : Stm} : AttemptM.Grows Stop.Matched (finish settings kernel) := by
  have hfreshen : AttemptM.Grows Stop.Matched
      (if settings.freshenKernels then liftM kernel.freshen else pure kernel : AttemptM Stm) := by
    split
    · exact .of_draws kernel.draws trivial
    · exact .pure
  rw [finish_eq]
  refine hfreshen.bind fun s => ?_
  split
  · exact Stm.grows_reduce
  · exact .pure

/-- Planning a nest gives no tag back. If there is a target for each map, it does not stop because
there were too few or too many. -/
theorem grows_plan :
    AttemptM.Grows (fun e => nesting.depth = targets.depth → e.Matched)
      (plan nesting targets stms) :=
  ((Selection.ofStms targets stms).grows_kernelNest nesting).bind fun _ => .pure

/-- Moving statements into a kernel gives no tag back. -/
theorem grows_distribute :
    AttemptM.Grows (fun e => nesting.depth = targets.depth → e.Matched)
      (distribute settings nesting targets stms) := by
  unfold distribute
  split
  · exact .pure
  · refine grows_plan.bind fun planned => ?_
    refine AttemptM.Grows.mono ?_ fun _ he _ => he
    exact KernelNest.grows_flatten.bind fun flat => grows_finish.bind fun kernel =>
      AttemptM.Grows.note.bind fun _ => .pure

end Kernels

section Loops

variable {level : Level} {copyConsumed : Bool}

/-- Deciding whether a loop may leave a level draws nothing. -/
theorem Level.grows_accept {form : LoopForm} :
    AttemptM.Grows Stop.Matched (level.accept form) := by
  cases form with
  | whileTrue cond => exact .refuse trivial
  | forBelow index bound =>
    rw [accept]
    split
    · exact .refuse trivial
    · exact .pure

/-- Widening a carried value draws one name or two. -/
theorem Level.grows_widen {m : Merge} : AttemptM.Grows Stop.Matched (level.widen m) := by
  unfold widen
  refine (AttemptM.Grows.freshBinder trivial).bind fun array => ?_
  cases m.init.name?.bind level.input? with
  | some i => exact .pure
  | none => exact (AttemptM.Grows.freshBinder trivial).bind fun _ => .pure

/-- Handing an array to the map draws at most one name. -/
theorem Level.grows_hand {i : RowInput} :
    AttemptM.Grows Stop.Matched (level.hand copyConsumed i) := by
  unfold hand
  split
  · exact (AttemptM.Grows.freshBinder trivial).bind fun _ => .pure
  · exact .pure

/-- Finding the array of a returned value draws nothing. It stops if the loop does not carry the
value. -/
theorem Widened.grows_returned {ws : List Widened} {n : Name} :
    AttemptM.Grows Stop.Matched (Widened.returned ws n) := by
  unfold returned
  cases ws.find? (·.inside.param.name = n) with
  | some w => exact .pure
  | none => exact .fail trivial

namespace LoopStm

variable {l : LoopStm}

/-- Moving a loop out of one level gives no tag back. -/
theorem grows_interchange : AttemptM.Grows Stop.Matched (l.interchange copyConsumed level) := by
  unfold interchange
  refine Level.grows_accept.bind fun _ => ?_
  refine (AttemptM.Grows.mapM (fun _ => Level.grows_widen) _).bind fun widened => ?_
  refine (AttemptM.Grows.mapM (fun _ => Level.grows_hand) _).bind fun handed => ?_
  refine (AttemptM.Grows.mapM (fun _ => ?_) _).bind fun results => ?_
  · exact (AttemptM.Grows.freshSuffixed trivial).bind fun _ => .pure
  refine (AttemptM.Grows.mapM (fun _ => Widened.grows_returned) _).bind fun ret => ?_
  split
  · exact .pure
  · exact (AttemptM.Grows.fail trivial).bind fun _ => .pure

/-- Moving a loop out of some levels gives no tag back, even if it gets stuck on the way. -/
theorem grows_interchangeLevels {position : Nat} {levels : List Level} :
    AttemptM.Grows Stop.Matched (l.interchangeLevels copyConsumed position levels) := by
  induction levels generalizing position with
  | nil => exact .pure
  | cons level levels ih =>
    exact ih.bind fun _ => grows_interchange.bind fun _ => AttemptM.Grows.note.bind fun _ => .pure

/-- Moving a loop out of a nest gives no tag back. -/
theorem grows_interchangeAll {nest : KernelNest} :
    AttemptM.Grows Stop.Matched (l.interchangeAll copyConsumed nest) :=
  grows_interchangeLevels.bind fun _ => .pure

end LoopStm

/-- Planning a nest for a loop and moving the loop out of it gives no tag back. -/
theorem grows_interchange {settings : Settings} {nesting : Nesting} {targets : Targets}
    {stm : Stm} :
    AttemptM.Grows (fun e => nesting.depth = targets.depth → e.Matched)
      (interchange settings nesting targets stm) := by
  unfold interchange
  cases LoopStm.ofStm? stm with
  | none => exact .refuse fun _ => trivial
  | some l =>
    refine grows_plan.bind fun planned => ?_
    cases l.select? planned.results with
    | none => exact .refuse fun _ => trivial
    | some l' =>
      refine AttemptM.Grows.mono ?_ fun _ he _ => he
      exact LoopStm.grows_interchangeAll.bind fun _ => .pure

end Loops

/-! ### The depth of what is left -/

section Depths

variable {settings : Settings} {nesting : Nesting} {targets : Targets} {st st' : Attempt}
  {moved : Moved}

/-- A plan leaves as many targets as there were. -/
theorem depth_of_plan_eq_ok {stms : List Stm} {planned : Planned}
    (h : plan nesting targets stms st = .ok planned st') :
    planned.targets.depth = targets.depth := by
  obtain ⟨hnest, -⟩ := plan_eq_ok h
  obtain ⟨hdepth, demand, harranges⟩ := Selection.arranges_of_kernelNest_eq_ok hnest
  calc planned.targets.depth
      = (nesting.levels targets).length := harranges.builds.depth_targets
    _ = nesting.depth := Nesting.length_levels hdepth
    _ = targets.depth := hdepth

/-- Moving statements into a kernel leaves as many targets as there were. -/
theorem depth_of_distribute_eq_ok {stms : List Stm}
    (h : distribute settings nesting targets stms st = .ok moved st') :
    moved.targets.depth = targets.depth := by
  rcases distribute_eq_ok h with
    ⟨-, rfl⟩ | ⟨planned, s, flat, supply, kernel, log, hplan, -, -, rfl⟩
  · rfl
  · exact depth_of_plan_eq_ok hplan

/-- Moving a loop out of a nest leaves as many targets as there were. -/
theorem depth_of_interchange_eq_ok {stm : Stm}
    (h : interchange settings nesting targets stm st = .ok moved st') :
    moved.targets.depth = targets.depth := by
  obtain ⟨l, l', planned, s, -, hplan, -, -, htargets⟩ := interchange_eq_ok h
  rw [htargets]
  exact depth_of_plan_eq_ok hplan

end Depths

/-! ### Moves -/

/-- What a walk does next. -/
inductive Move where
  /-- Gives names their types. -/
  | declare (names : List Binder)
  /-- Gives the arrays of all targets their types. -/
  | declareTargets
  /-- Enters a map, with what the map has to produce. -/
  | enter (map : Enclosing) (target : Target)
  /-- Leaves the innermost map. -/
  | leave
  /-- Notes names as bound by the innermost map's body. -/
  | letBind (names : List Name)
  /-- Moves statements into a kernel. -/
  | distribute (stms : List Stm)
  /-- Moves a loop out of the maps. -/
  | interchange (stm : Stm)
  /-- Plans a kernel nest for statements. -/
  | plan (stms : List Stm)
  /-- Makes a kernel of the nest planned last. -/
  | flatten (body : Body)
  /-- Moves a loop out of the nest planned last. -/
  | interchangeNest (loop : LoopStm)

namespace Session

/-- Leaves the innermost map, unless it is the only one. Its target is given up. -/
def leave (s : Session) : Session :=
  match s.nesting.popInner? with
  | some (_, nesting) => { s.dropTarget.2 with nesting }
  | none => s

/-- The reason why something stopped, if it did, and the session after it. -/
def stopped {α : Type} (r : Except Stop α × Session) : Option Stop × Session :=
  match r with
  | (.ok _, s) => (none, s)
  | (.error e, s) => (some e, s)

/-- Makes a move. If it stops, the reason comes with the session. Nothing is done with a nest that
was never planned. -/
def make (s : Session) : Move → Option Stop × Session
  | .declare names => (none, s.declare names)
  | .declareTargets => (none, s.declareTargets)
  | .enter map target => (none, (s.enter map).aim target)
  | .leave => (none, s.leave)
  | .letBind names => (none, s.letBind names)
  | .distribute stms => stopped (s.distribute stms)
  | .interchange stm => stopped (s.interchange stm)
  | .plan stms => stopped (s.plan stms)
  | .flatten body => (s.flatten body).elim (none, s) stopped
  | .interchangeNest loop => (s.interchangeNest loop).elim (none, s) stopped

/-- Makes one move after the other. One that stops does not stop the walk. -/
def walk (s : Session) (moves : List Move) : Session := moves.foldl (fun s m => (s.make m).2) s

/-- There is a target for each map. -/
def InStep (s : Session) : Prop := s.nesting.depth = s.targets.depth

/-- What lasts from one session to a later one. -/
structure Later (s s' : Session) : Prop where
  /-- No tag has been given back. -/
  next_le : s.supply.next ≤ s'.supply.next
  /-- What was noted is still there. -/
  log : s.log <+: s'.log
  /-- Statements are moved in the same way. -/
  settings : s'.settings = s.settings
  /-- Stacks of one depth are still of one depth. -/
  inStep : s.InStep → s'.InStep

/-- What a move may come to: a later session and, if it stopped, a reason. -/
structure Outcome (s : Session) (r : Option Stop × Session) : Prop where
  /-- The walk goes on from a later session. -/
  later : s.Later r.2
  /-- A move that stops draws names and notes events, and changes nothing else. -/
  unchanged : ∀ e, r.1 = some e → ∃ supply log, r.2 = { s with supply, log }
  /-- A move does not stop because of the depths of the stacks if there is a target for each map. -/
  matched : ∀ e, r.1 = some e → s.InStep → e.Matched

namespace Later

variable {s s₁ s' : Session}

/-- A session is as late as itself. -/
theorem refl : s.Later s := ⟨Nat.le_refl _, List.prefix_refl _, rfl, id⟩

/-- What lasts over two walks lasts over both together. -/
theorem trans (h : s.Later s₁) (h' : s₁.Later s') : s.Later s' where
  next_le := Nat.le_trans h.next_le h'.next_le
  log := h.log.trans h'.log
  settings := h'.settings.trans h.settings
  inStep hs := h'.inStep (h.inStep hs)

/-- A session that differs in scope and in stacks only, these being in step. -/
theorem of_inStep {scope : Scope} {nesting : Nesting} {targets : Targets}
    (h : s.InStep → nesting.depth = targets.depth) : s.Later { s with scope, nesting, targets } :=
  ⟨Nat.le_refl _, List.prefix_refl _, rfl, h⟩

/-- Both stacks lose a level, or both have one level only. -/
theorem leave : s.Later s.leave := by
  unfold Session.leave dropTarget
  cases hnesting : s.nesting.popInner? with
  | none => exact refl
  | some x =>
    have hdepth := Stack.depth_of_popInner?_eq_some hnesting
    cases htargets : s.targets.popInner? with
    | some y =>
      have hdepth' := Stack.depth_of_popInner?_eq_some htargets
      refine of_inStep fun h => ?_
      rw [InStep, hdepth, hdepth'] at h
      exact Nat.succ_injective h
    | none =>
      -- A stack of one level is not in step with one that has a level to leave.
      have hone := Stack.depth_of_popInner?_eq_none htargets
      refine of_inStep fun h => ?_
      rw [InStep, hdepth, hone] at h
      exact absurd (Nat.succ_injective h) (Nat.succ_ne_zero _)

end Later

variable {s : Session}

/-- A move that cannot stop comes to a later session. -/
theorem Outcome.of_later {s' : Session} (h : s.Later s') : s.Outcome (none, s') :=
  ⟨h, fun _ he => (nomatch he), fun _ he => (nomatch he)⟩

/-- An attempt comes to what is done with its result, if it has one. If not, the session goes on
from the names drawn and the events noted. -/
theorem outcome_attemptWith {α : Type} {act : AttemptM α} {keep : α → Session → Session}
    (hgrows : AttemptM.Grows (fun e => s.InStep → e.Matched) act)
    (hkeep : ∀ a st, act { supply := s.supply, scope := s.scope } = .ok a st →
      Later { s with supply := st.supply, log := s.log ++ st.log }
        (keep a { s with supply := st.supply, log := s.log ++ st.log })) :
    s.Outcome (stopped (s.attemptWith act keep)) := by
  have hle := hgrows.next_le { supply := s.supply, scope := s.scope }
  unfold attemptWith attempt
  cases hact : act { supply := s.supply, scope := s.scope } with
  | ok a st =>
    rw [hact] at hle
    have hdrawn : s.Later { s with supply := st.supply, log := s.log ++ st.log } :=
      ⟨hle, List.prefix_append .., rfl, id⟩
    exact .of_later (hdrawn.trans (hkeep a st hact))
  | error e st =>
    rw [hact] at hle
    refine ⟨⟨hle, List.prefix_append .., rfl, id⟩, fun _ _ => ⟨_, _, rfl⟩, fun e' he' => ?_⟩
    cases he'
    exact hgrows.stops _ _ _ hact

/-- An attempt whose result is not kept. -/
theorem outcome_attempt {α : Type} {act : AttemptM α}
    (hgrows : AttemptM.Grows Stop.Matched act) : s.Outcome (stopped (s.attempt act)) := by
  have heq : s.attemptWith act (fun _ s => s) = s.attempt act := by
    unfold attemptWith
    rcases s.attempt act with ⟨(e | a), s'⟩ <;> rfl
  rw [← heq]
  exact outcome_attemptWith (hgrows.mono fun _ he _ => he) fun _ _ _ => .refl

/-- An attempt at the nest planned last. If there is none, nothing is done. -/
theorem outcome_ofNest {α : Type} {act : KernelNest → AttemptM α}
    (hgrows : ∀ nest, AttemptM.Grows Stop.Matched (act nest)) :
    s.Outcome ((s.nest?.map fun nest => s.attempt (act nest)).elim (none, s) stopped) := by
  cases s.nest? with
  | none => exact .of_later .refl
  | some nest => exact outcome_attempt (hgrows nest)

/-- What each move may come to. -/
theorem make_outcome (s : Session) (m : Move) : s.Outcome (s.make m) := by
  cases m with
  | declare names => exact .of_later (.of_inStep id)
  | declareTargets => exact .of_later (.of_inStep id)
  | enter map target =>
    -- Both stacks get a level.
    refine .of_later (.of_inStep fun h => ?_)
    show (s.nesting.pushInner map).depth = (s.targets.pushInner target).depth
    rw [Stack.depth_pushInner, Stack.depth_pushInner, h]
  | leave => exact .of_later .leave
  | letBind names => exact .of_later (.of_inStep id)
  | distribute stms =>
    refine outcome_attemptWith grows_distribute fun moved st hmoved => .of_inStep fun h => ?_
    rw [depth_of_distribute_eq_ok hmoved]
    exact h
  | interchange stm =>
    refine outcome_attemptWith grows_interchange fun moved st hmoved => .of_inStep fun h => ?_
    rw [depth_of_interchange_eq_ok hmoved]
    exact h
  | plan stms =>
    -- Only the nest is kept.
    exact outcome_attemptWith grows_plan fun planned st _ =>
      ⟨Nat.le_refl _, List.prefix_refl _, rfl, id⟩
  | flatten body => exact outcome_ofNest fun _ => KernelNest.grows_flatten
  | interchangeNest loop => exact outcome_ofNest fun _ => LoopStm.grows_interchangeAll

/-- A plan stops because of the depths exactly if there is not a target for each map. -/
theorem plan_mismatched_iff {stms : List Stm} :
    (∃ e, (s.make (.plan stms)).1 = some e ∧ ¬ e.Matched) ↔ ¬ s.InStep := by
  constructor
  · rintro ⟨e, he, hmismatched⟩ h
    exact hmismatched ((s.make_outcome (.plan stms)).matched e he h)
  · intro h
    -- The depths are compared before anything else is done.
    have hdepth : ¬ s.nesting.depth = (Selection.ofStms s.targets stms).targets.depth := h
    have hplan : MapNest.plan s.nesting s.targets stms { supply := s.supply, scope := s.scope }
        = .error (.failed (.depthMismatch s.nesting.depth s.targets.depth))
          { supply := s.supply, scope := s.scope } := by
      unfold MapNest.plan Selection.kernelNest
      rw [if_neg hdepth]
      rfl
    refine ⟨.failed (.depthMismatch s.nesting.depth s.targets.depth), ?_, id⟩
    rw [make, Session.plan, attemptWith, attempt, hplan]
    rfl

/-- What lasts over a whole walk. -/
theorem walk_later (s : Session) (moves : List Move) : s.Later (s.walk moves) := by
  induction moves generalizing s with
  | nil => exact .refl
  | cons m moves ih => exact (s.make_outcome m).later.trans (ih (s.make m).2)

/-- A walk that begins with a target for each map never meets stacks of different depths. Whatever
stops on the way changes nothing but the supply and the log. -/
theorem walk_outcome (h : s.InStep) (moves : List Move) (m : Move) {e : Stop}
    (he : ((s.walk moves).make m).1 = some e) :
    e.Matched ∧ ∃ supply log, ((s.walk moves).make m).2 = { s.walk moves with supply, log } := by
  have hinStep := (s.walk_later moves).inStep h
  have houtcome := (s.walk moves).make_outcome m
  exact ⟨houtcome.matched e he hinStep, houtcome.unchanged e he⟩

end Session

end MapNest
