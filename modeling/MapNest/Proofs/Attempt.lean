import Mathlib.Data.List.Forall2
import MapNest.Attempt

/-!
# `MapNest.Proofs.Attempt`: what the steps of an attempt do

An attempt that succeeds has done each of its steps in turn. The theorems here take a successful
run apart:

* `bind_eq_ok_iff`, `pure_eq_ok_iff`, `mapM_cons_eq_ok_iff`: the general steps;
* `AttemptM.typeOf_eq_ok_iff`, `AttemptM.freshBinder_eq_ok_iff`: the steps that read a type and
  that draw a name;
* `mapM_induction`: a property of states and results that each member of a list adds to.

`Attempt.Later` says what lasts from one state to a later one: names keep the types they have.

Tags only grow: `Drawn` says so of names drawn one after the other, and `mapM_drawn` of a run that
draws some at each step. Where the order does not matter, names are `Fresh`, and `mapM_between` is
enough. An attempt that stops gives no tag back either: this is `AttemptM.Grows`, which the steps
hand on, together with what is known of the reason why they stop.
-/

set_option autoImplicit false

namespace MapNest

/-! ### Lists related member by member -/

section Pairs

variable {α β γ : Type} {R : α → β → Prop} {l : List α} {l' : List β}

/-- A member of the first list has a partner in the second. -/
theorem exists_of_mem_left (h : List.Forall₂ R l l') {a : α} (ha : a ∈ l) : ∃ b ∈ l', R a b := by
  induction h with
  | nil => cases ha
  | @cons x y _ _ hxy _ ih =>
    rcases List.mem_cons.1 ha with rfl | ha
    · exact ⟨y, List.mem_cons_self .., hxy⟩
    · obtain ⟨b, hb, hab⟩ := ih ha
      exact ⟨b, List.mem_cons_of_mem _ hb, hab⟩

/-- A member of the second list has a partner in the first. -/
theorem exists_of_mem_right (h : List.Forall₂ R l l') {b : β} (hb : b ∈ l') : ∃ a ∈ l, R a b :=
  exists_of_mem_left h.flip hb

/-- Two functions give the same list if they agree on each pair of members. They only have to do so
on pairs that occur, so facts about membership may be used. -/
theorem map_eq_map_of_forall₂ {f : α → γ} {g : β → γ} (h : List.Forall₂ R l l')
    (heq : ∀ a ∈ l, ∀ b ∈ l', R a b → f a = g b) : l.map f = l'.map g := by
  induction h with
  | nil => rfl
  | @cons a b l l' hab _ ih =>
    rw [List.map_cons, List.map_cons, heq a (List.mem_cons_self ..) b (List.mem_cons_self ..) hab,
      ih fun a ha b hb => heq a (List.mem_cons_of_mem _ ha) b (List.mem_cons_of_mem _ hb)]

/-- A relation between members may be weakened, with their membership at hand. -/
theorem forall₂_imp_of_mem {S : α → β → Prop} (h : List.Forall₂ R l l')
    (himp : ∀ a ∈ l, ∀ b ∈ l', R a b → S a b) : List.Forall₂ S l l' := by
  refine List.forall₂_iff_zip.2 ⟨h.length_eq, fun {a b} hab => ?_⟩
  obtain ⟨ha, hb⟩ := List.of_mem_zip hab
  exact himp a ha b hb (List.forall₂_zip h hab)

/-- Two relations between three lists, one after the other. -/
theorem forall₂_comp {S : β → γ → Prop} {T : α → γ → Prop} {l'' : List γ}
    (h : List.Forall₂ R l l') (h' : List.Forall₂ S l' l'')
    (hcomp : ∀ a b c, R a b → S b c → T a c) : List.Forall₂ T l l'' := by
  induction h generalizing l'' with
  | nil =>
    cases h'
    exact .nil
  | cons hab _ ih =>
    cases h' with
    | cons hbc htail => exact .cons (hcomp _ _ _ hab hbc) (ih htail)

/-- Lists related member by member are related place by place. -/
theorem rel_getElem? (h : List.Forall₂ R l l') : ∀ k : Nat, Option.Rel R l[k]? l'[k]? := by
  induction h with
  | nil => exact fun _ => .none
  | cons hab _ ih =>
    rintro (_ | k)
    · exact .some hab
    · exact ih k

/-- At the place of a member of the first list stands its partner in the second. -/
theorem exists_of_getElem?_left (h : List.Forall₂ R l l') {k : Nat} {a : α}
    (ha : l[k]? = some a) : ∃ b, l'[k]? = some b ∧ R a b := by
  have hrel := rel_getElem? h k
  rw [ha] at hrel
  cases hb : l'[k]? with
  | none =>
    rw [hb] at hrel
    cases hrel
  | some b =>
    rw [hb] at hrel
    cases hrel with
    | some hab => exact ⟨b, rfl, hab⟩

/-- At the place of a member of the second list stands its partner in the first. -/
theorem exists_of_getElem?_right (h : List.Forall₂ R l l') {k : Nat} {b : β}
    (hb : l'[k]? = some b) : ∃ a, l[k]? = some a ∧ R a b :=
  exists_of_getElem?_left h.flip hb

/-- A function that gives something for each member of a list keeps their places. -/
theorem forall₂_filterMap {f : α → Option β} (h : ∀ a ∈ l, ∃ b, f a = some b ∧ R a b) :
    List.Forall₂ R l (l.filterMap f) := by
  induction l with
  | nil => exact .nil
  | cons a l ih =>
    obtain ⟨b, hb, hab⟩ := h a (List.mem_cons_self ..)
    rw [List.filterMap_cons, hb]
    exact .cons hab (ih fun a ha => h a (List.mem_cons_of_mem _ ha))

/-- A function that may give nothing gives a list exactly if it gives its members, one by one. -/
theorem mapM_eq_some_iff {f : α → Option β} :
    l.mapM f = some l' ↔ List.Forall₂ (fun a b => f a = some b) l l' := by
  induction l generalizing l' with
  | nil => simp [eq_comm]
  | cons a l ih =>
    rw [List.mapM_cons, List.forall₂_cons_left_iff]
    simp only [Option.bind_eq_bind, Option.bind_eq_some_iff, Option.pure_def, Option.some.injEq]
    constructor
    · rintro ⟨b, hb, bs, hbs, rfl⟩
      exact ⟨b, bs, hb, ih.1 hbs, rfl⟩
    · rintro ⟨b, bs, hb, hbs, rfl⟩
      exact ⟨b, hb, bs, ih.2 hbs, rfl⟩

/-- If a function gives something for each member, it gives a list of the same length. -/
theorem exists_mapM_eq_some {f : α → Option β} (h : ∀ a ∈ l, ∃ b, f a = some b) :
    ∃ bs, l.mapM f = some bs ∧ bs.length = l.length := by
  have hall : List.Forall₂ (fun a b => f a = some b) l (l.filterMap f) :=
    forall₂_filterMap fun a ha => (h a ha).imp fun b hb => ⟨hb, hb⟩
  exact ⟨_, mapM_eq_some_iff.2 hall, hall.length_eq.symm⟩

end Pairs

/-! ### Steps -/

section Steps

variable {ε σ α β : Type}

/-- Two steps succeed exactly if the first does, and then the second from where the first ended. -/
theorem bind_eq_ok_iff {x : EStateM ε σ α} {f : α → EStateM ε σ β} {s s' : σ} {b : β} :
    (x >>= f) s = .ok b s' ↔ ∃ a s₁, x s = .ok a s₁ ∧ f a s₁ = .ok b s' := by
  show (EStateM.bind x f) s = .ok b s' ↔ _
  unfold EStateM.bind
  cases h : x s with
  | ok a s₁ =>
    constructor
    · intro hf
      exact ⟨a, s₁, rfl, hf⟩
    · rintro ⟨a', s₁', heq, hf⟩
      cases heq
      exact hf
  | error e s₁ => simp

/-- Giving a result leaves the state alone. -/
theorem pure_eq_ok_iff {a b : α} {s s' : σ} :
    (pure a : EStateM ε σ α) s = .ok b s' ↔ a = b ∧ s = s' := by
  show EStateM.Result.ok a s = .ok b s' ↔ _
  simp

/-- What is done with a result afterwards does not touch the state. -/
theorem bind_pure_eq_ok_iff {x : EStateM ε σ α} {f : α → β} {s s' : σ} {b : β} :
    (x >>= fun a => pure (f a)) s = .ok b s' ↔ ∃ a, x s = .ok a s' ∧ f a = b := by
  rw [bind_eq_ok_iff]
  constructor
  · rintro ⟨a, s₁, hx, hpure⟩
    obtain ⟨rfl, rfl⟩ := pure_eq_ok_iff.1 hpure
    exact ⟨a, hx, rfl⟩
  · rintro ⟨a, hx, rfl⟩
    exact ⟨a, s', hx, rfl⟩

/-- Over the empty list nothing is done. -/
theorem mapM_nil_eq_ok_iff {f : α → EStateM ε σ β} {s s' : σ} {bs : List β} :
    ([].mapM f : EStateM ε σ (List β)) s = .ok bs s' ↔ bs = [] ∧ s = s' := by
  rw [List.mapM_nil, pure_eq_ok_iff, eq_comm]

/-- Over a list the first member is taken first, and the others from the state that it leaves. -/
theorem mapM_cons_eq_ok_iff {f : α → EStateM ε σ β} {a : α} {l : List α} {s s' : σ}
    {bs : List β} :
    ((a :: l).mapM f : EStateM ε σ (List β)) s = .ok bs s' ↔
      ∃ b s₁ rest, f a s = .ok b s₁ ∧ (l.mapM f) s₁ = .ok rest s' ∧ bs = b :: rest := by
  simp only [List.mapM_cons, bind_eq_ok_iff, pure_eq_ok_iff]
  constructor
  · rintro ⟨b, s₁, hb, rest, s₂, hrest, rfl, rfl⟩
    exact ⟨b, s₁, rest, hb, hrest, rfl⟩
  · rintro ⟨b, s₁, rest, hb, hrest, rfl⟩
    exact ⟨b, s₁, hb, rest, s', hrest, rfl, rfl⟩

/-- What each member of a list adds to a property of the state before, the members done, their
results and the state after holds of the whole list. -/
theorem mapM_induction {f : α → EStateM ε σ β} (P : σ → List α → List β → σ → Prop)
    (hnil : ∀ s, P s [] [] s)
    (hcons : ∀ a l b bs s s₁ s', f a s = .ok b s₁ → P s₁ l bs s' → P s (a :: l) (b :: bs) s') :
    ∀ {l : List α} {s s' : σ} {bs : List β}, (l.mapM f) s = .ok bs s' → P s l bs s' := by
  intro l
  induction l with
  | nil =>
    intro s s' bs h
    obtain ⟨rfl, rfl⟩ := mapM_nil_eq_ok_iff.1 h
    exact hnil s
  | cons a l ih =>
    intro s s' bs h
    obtain ⟨b, s₁, rest, hb, hrest, rfl⟩ := mapM_cons_eq_ok_iff.1 h
    exact hcons a l b rest s s₁ s' hb (ih hrest)

/-- The state in which a run ends, with a result or without. -/
def stateOf : EStateM.Result ε σ α → σ
  | .ok _ s => s
  | .error _ s => s

/-- A run ends with a result that passes a test. -/
def passes (test : α → Bool) : EStateM.Result ε σ α → Bool
  | .ok a _ => test a
  | .error _ _ => false

/-- The result of a run that is known, by evaluation, to pass a test. -/
theorem exists_of_passes {test : α → Bool} {r : EStateM.Result ε σ α} (h : passes test r = true) :
    ∃ a s, r = .ok a s ∧ test a = true := by
  cases r with
  | ok a s => exact ⟨a, s, rfl, h⟩
  | error e s => cases h

end Steps

namespace AttemptM

variable {α : Type} {st st' : Attempt}

/-- A failure has no result. -/
theorem fail_ne_ok {e : Failure} {a : α} : (fail e : AttemptM α) st ≠ .ok a st' := by
  intro h
  cases h

/-- A refusal has no result. -/
theorem refuse_ne_ok {r : Refusal} {a : α} : (refuse r : AttemptM α) st ≠ .ok a st' := by
  intro h
  cases h

/-- Noting an event adds it at the end of the log. -/
theorem note_eq_ok_iff {e : Event} {u : Unit} :
    note e st = .ok u st' ↔ st' = { st with log := st.log ++ [e] } := by
  show EStateM.Result.ok () _ = .ok u st' ↔ _
  simp [eq_comm]

/-- The type of a name is found exactly if the name is in scope, and nothing changes. -/
theorem typeOf_eq_ok_iff {n : Name} {ty : Ty} :
    typeOf n st = .ok ty st' ↔ st.scope.lookup? n = some ty ∧ st' = st := by
  show ((get : AttemptM Attempt) >>= _) st = .ok ty st' ↔ _
  rw [bind_eq_ok_iff]
  constructor
  · rintro ⟨a, s₁, hget, h⟩
    cases hget
    cases hl : st.scope.lookup? n with
    | none =>
      simp only [hl] at h
      exact absurd h fail_ne_ok
    | some t =>
      simp only [hl, pure_eq_ok_iff] at h
      exact ⟨by rw [h.1], h.2.symm⟩
  · rintro ⟨hl, rfl⟩
    exact ⟨st', st', rfl, by simp only [hl]; rfl⟩

/-- Drawing names moves the supply on and leaves the rest of the attempt as it is. -/
theorem liftM_eq_ok_iff {act : FreshM α} {a : α} :
    (liftM act : AttemptM α) st = .ok a st' ↔
      ∃ supply, act st.supply = .ok a supply ∧ st' = { st with supply } := by
  -- The lifted action runs on the supply alone, and only the supply is put back.
  simp only [liftM, monadLift, MonadLift.monadLift]
  cases h : act st.supply with
  | ok b supply =>
    simp only [EStateM.Result.ok.injEq]
    constructor
    · rintro ⟨rfl, rfl⟩
      exact ⟨supply, ⟨rfl, rfl⟩, rfl⟩
    · rintro ⟨s, ⟨rfl, rfl⟩, rfl⟩
      exact ⟨rfl, rfl⟩
  | error e supply => simp

/-- A fresh binder has the next tag, if that is not the last one, and its type is in scope from then
on. -/
theorem freshBinder_eq_ok_iff {n : Name} {suffix : String} {ty : Ty} {b : Binder} :
    freshBinder n suffix ty st = .ok b st' ↔
      st.supply.next < Supply.lastTag ∧ b = ⟨⟨n.base ++ suffix, st.supply.next⟩, ty⟩ ∧
        st' = { st with supply := ⟨st.supply.next + 1⟩, scope := st.scope.insert b } := by
  simp only [freshBinder, bind_eq_ok_iff, liftM_eq_ok_iff, pure_eq_ok_iff,
    Supply.freshSuffixed, Supply.fresh_eq_ok_iff]
  constructor
  · rintro ⟨m, s₁, ⟨supply, ⟨hlt, rfl, rfl⟩, rfl⟩, u, s₂, hdecl, rfl, rfl⟩
    cases hdecl
    exact ⟨hlt, rfl, rfl⟩
  · rintro ⟨hlt, rfl, rfl⟩
    exact ⟨_, _, ⟨_, ⟨hlt, rfl, rfl⟩, rfl⟩, (), _, rfl, rfl, rfl⟩

end AttemptM

/-! ### Types in scope -/

/-- Later in an attempt no tag has been given back, and names with an earlier tag have the types
that they had. -/
structure Attempt.Later (st st' : Attempt) : Prop where
  next_le : st.supply.next ≤ st'.supply.next
  types : ∀ n : Name, n.tag < st.supply.next → st'.scope.lookup? n = st.scope.lookup? n

namespace Attempt.Later

variable {st st₁ st' : Attempt}

/-- Nothing has changed in the state itself. -/
theorem refl : st.Later st := ⟨Nat.le_refl _, fun _ _ => rfl⟩

/-- What lasts over two parts of an attempt lasts over both. -/
theorem trans (h : st.Later st₁) (h' : st₁.Later st') : st.Later st' :=
  ⟨Nat.le_trans h.next_le h'.next_le, fun n hn =>
    (h'.types n (Nat.lt_of_lt_of_le hn h.next_le)).trans (h.types n hn)⟩

/-- A fresh name is above all names before, so giving it a type hides none of theirs. -/
theorem freshBinder {n : Name} {suffix : String} {ty : Ty} {b : Binder}
    (h : AttemptM.freshBinder n suffix ty st = .ok b st') :
    st.Later st' ∧ b.name.tag < st'.supply.next ∧ st'.scope.lookup? b.name = some b.ty := by
  obtain ⟨-, rfl, rfl⟩ := AttemptM.freshBinder_eq_ok_iff.1 h
  refine ⟨⟨Nat.le_succ _, fun m hm => Scope.lookup?_insert_of_ne fun heq => ?_⟩,
    Nat.lt_succ_self _, Scope.lookup?_insert_self⟩
  rw [← heq] at hm
  exact Nat.lt_irrefl _ hm

/-- What lasts over each step lasts over a run. -/
theorem mapM {α β : Type} {f : α → AttemptM β}
    (hf : ∀ a b st st', f a st = .ok b st' → st.Later st') {l : List α} {bs : List β}
    (h : (l.mapM f) st = .ok bs st') : st.Later st' :=
  mapM_induction (fun s _ _ s' => s.Later s') (fun _ => .refl)
    (fun a _ b _ s s₁ _ hb hrest => (hf a b s s₁ hb).trans hrest) h

end Attempt.Later

namespace AttemptM

variable {α : Type} {st st' : Attempt}

/-! ### Attempts that may stop -/

/-- Whether it succeeds or not, an attempt gives no tag back. If it stops, the reason is one that is
allowed. -/
structure Grows (stop : Stop → Prop) (act : AttemptM α) : Prop where
  next_le : ∀ st, st.supply.next ≤ (stateOf (act st)).supply.next
  stops : ∀ st e st', act st = .error e st' → stop e

namespace Grows

variable {β : Type} {stop stop' : Stop → Prop} {act : AttemptM α}

/-- More reasons may be allowed. -/
theorem mono (h : Grows stop act) (hstop : ∀ e, stop e → stop' e) : Grows stop' act :=
  ⟨h.next_le, fun st e st' hact => hstop e (h.stops st e st' hact)⟩

/-- An attempt that always succeeds and gives no tag back. -/
theorem of_ok {f : Attempt → α} {g : Attempt → Attempt} (h : ∀ st, act st = .ok (f st) (g st))
    (hle : ∀ st, st.supply.next ≤ (g st).supply.next) : Grows stop act := by
  constructor
  · intro st
    rw [h st]
    exact hle st
  · intro st e st' hact
    rw [h st] at hact
    cases hact

/-- An attempt that always stops for one reason and gives no tag back. -/
theorem of_error {e : Stop} {g : Attempt → Attempt} (h : ∀ st, act st = .error e (g st))
    (hle : ∀ st, st.supply.next ≤ (g st).supply.next) (hstop : stop e) : Grows stop act := by
  constructor
  · intro st
    rw [h st]
    exact hle st
  · intro st e' st' hact
    rw [h st] at hact
    cases hact
    exact hstop

/-- Giving a result draws nothing. -/
theorem pure {a : α} : Grows stop (Pure.pure a) := of_ok (fun _ => rfl) fun _ => Nat.le_refl _

/-- Two attempts one after the other stop where the first of them does, or else the second. -/
theorem bind {next : α → AttemptM β} (h : Grows stop act) (hnext : ∀ a, Grows stop (next a)) :
    Grows stop (act >>= next) := by
  constructor
  · intro st
    have hact := h.next_le st
    show st.supply.next ≤ (stateOf (EStateM.bind act next st)).supply.next
    unfold EStateM.bind
    cases hst : act st with
    | ok a s =>
      rw [hst] at hact
      exact Nat.le_trans hact ((hnext a).next_le s)
    | error e s =>
      rw [hst] at hact
      exact hact
  · intro st e st' hbind
    have hbind : EStateM.bind act next st = .error e st' := hbind
    unfold EStateM.bind at hbind
    cases hst : act st with
    | ok a s =>
      rw [hst] at hbind
      exact (hnext a).stops s e st' hbind
    | error e' s =>
      rw [hst] at hbind
      cases hbind
      exact h.stops st _ _ hst

/-- A run over a list gives no tag back if no step does. -/
theorem mapM {f : β → AttemptM α} (h : ∀ b, Grows stop (f b)) (l : List β) :
    Grows stop (l.mapM f) := by
  induction l with
  | nil => exact .pure
  | cons b l ih =>
    rw [List.mapM_cons]
    exact (h b).bind fun _ => ih.bind fun _ => .pure

/-- A failure draws nothing. -/
theorem fail {e : Failure} (h : stop (.failed e)) : Grows stop (fail e : AttemptM α) :=
  of_error (fun _ => rfl) (fun _ => Nat.le_refl _) h

/-- A refusal draws nothing. -/
theorem refuse {r : Refusal} (h : stop (.refused r)) : Grows stop (refuse r : AttemptM α) :=
  of_error (fun _ => rfl) (fun _ => Nat.le_refl _) h

/-- Noting an event draws nothing. -/
theorem note {e : Event} : Grows stop (note e) := of_ok (fun _ => rfl) fun _ => Nat.le_refl _

/-- Looking up a type draws nothing. It stops if the name has none. -/
theorem typeOf {n : Name} (h : stop (.failed (.unboundName n))) : Grows stop (typeOf n) := by
  have hget : Grows stop get := of_ok (fun _ => rfl) fun _ => Nat.le_refl _
  refine hget.bind fun st => ?_
  cases st.scope.lookup? n with
  | some ty => exact .pure
  | none => exact .fail h

/-- What is done on the supply alone gives no tag back if the supply does not go back. -/
theorem lift {act : FreshM α} (hle : ∀ s, s.next ≤ (stateOf (act s)).next)
    (hstop : ∀ s e s', act s = .error e s' → stop (.failed e)) :
    Grows stop (liftM act : AttemptM α) := by
  constructor
  · intro st
    have hact := hle st.supply
    simp only [liftM, monadLift, MonadLift.monadLift]
    cases h : act st.supply with
    | ok a supply =>
      rw [h] at hact
      exact hact
    | error e supply =>
      rw [h] at hact
      exact hact
  · intro st e st' hact
    simp only [liftM, monadLift, MonadLift.monadLift] at hact
    cases h : act st.supply with
    | ok a supply =>
      rw [h] at hact
      cases hact
    | error e' supply =>
      rw [h] at hact
      cases hact
      exact hstop _ _ _ h

/-- Drawing a name stops only if there are no tags left. -/
theorem freshSuffixed {n : Name} {suffix : String} (h : stop (.failed .overflow)) :
    Grows stop (liftM (Supply.freshSuffixed n suffix) : AttemptM Name) := by
  refine lift (fun s => ?_) fun s e s' hfresh => ?_
  · cases hfresh : Supply.freshSuffixed n suffix s with
    | ok m supply =>
      obtain ⟨-, -, rfl⟩ := Supply.fresh_eq_ok_iff.1 hfresh
      exact Nat.le_succ _
    | error e supply =>
      obtain ⟨-, -, rfl⟩ := Supply.fresh_eq_error_iff.1 hfresh
      exact Nat.le_refl _
  · obtain ⟨-, rfl, -⟩ := Supply.fresh_eq_error_iff.1 hfresh
    exact h

/-- Drawing a name and giving it a type stops only if there are no tags left. -/
theorem freshBinder {n : Name} {suffix : String} {ty : Ty} (h : stop (.failed .overflow)) :
    Grows stop (freshBinder n suffix ty) := by
  have hdeclare : ∀ b, Grows stop (declare b) := fun _ =>
    of_ok (fun _ => rfl) fun _ => Nat.le_refl _
  exact (freshSuffixed h).bind fun _ => (hdeclare _).bind fun _ => .pure

end Grows

end AttemptM

/-! ### Names drawn one after the other -/

/-- The tags of some names grow, from a bound on to below another. -/
def Drawn (lo hi : Nat) (names : List Name) : Prop :=
  names.Pairwise (·.tag < ·.tag) ∧ ∀ n ∈ names, lo ≤ n.tag ∧ n.tag < hi

namespace Drawn

variable {lo mid hi : Nat} {names names' : List Name} {n : Name}

/-- Nothing is drawn between any two bounds. -/
@[simp] theorem nil : Drawn lo hi [] := ⟨List.Pairwise.nil, by simp⟩

/-- One name is drawn between two bounds if its tag is. -/
theorem singleton (hlo : lo ≤ n.tag) (hhi : n.tag < hi) : Drawn lo hi [n] :=
  ⟨List.pairwise_singleton .., by simpa using ⟨hlo, hhi⟩⟩

/-- The bounds may be moved apart. -/
theorem mono {lo' hi' : Nat} (h : Drawn lo hi names) (hlo : lo' ≤ lo) (hhi : hi ≤ hi') :
    Drawn lo' hi' names := by
  refine ⟨h.1, ?_⟩
  intro n hn
  have := h.2 n hn
  omega

/-- Names drawn up to some tag, and then others from that tag on. -/
theorem append (h : Drawn lo mid names) (h' : Drawn mid hi names') (hlo : lo ≤ mid)
    (hhi : mid ≤ hi) : Drawn lo hi (names ++ names') := by
  constructor
  · -- Tags of the first batch are below the middle, those of the second from it on.
    rw [List.pairwise_append]
    refine ⟨h.1, h'.1, ?_⟩
    intro a ha b hb
    have := h.2 a ha
    have := h'.2 b hb
    omega
  · intro n hn
    rcases List.mem_append.1 hn with hn | hn
    · have := h.2 n hn
      omega
    · have := h'.2 n hn
      omega

/-- Some of the names are drawn in the same order. -/
theorem sublist (h : Drawn lo hi names) (hsub : names'.Sublist names) : Drawn lo hi names' :=
  ⟨h.1.sublist hsub, fun n hn => h.2 n (hsub.subset hn)⟩

/-- Tags grow, so no name is drawn twice. -/
theorem nodup (h : Drawn lo hi names) : names.Nodup := by
  refine h.1.imp ?_
  rintro a b hlt rfl
  exact Nat.lt_irrefl _ hlt

/-- A name with an earlier tag is not among those drawn. -/
theorem not_mem_of_lt (h : Drawn lo hi names) (hn : n.tag < lo) : n ∉ names := by
  intro hmem
  have := h.2 n hmem
  omega

end Drawn

/-- Some names are distinct, and their tags lie between two bounds. -/
structure Fresh (lo hi : Nat) (names : List Name) : Prop where
  nodup : names.Nodup
  tags : ∀ n ∈ names, lo ≤ n.tag ∧ n.tag < hi

/-- Names drawn in order are distinct, and the order may be forgotten. -/
theorem Drawn.fresh {lo hi : Nat} {names : List Name} (h : Drawn lo hi names) :
    Fresh lo hi names :=
  ⟨h.nodup, h.2⟩

namespace Fresh

variable {lo mid hi : Nat} {names names' : List Name}

/-- The empty list holds no name twice. -/
@[simp] theorem nil : Fresh lo hi [] := ⟨.nil, by simp⟩

/-- Two batches of names, the one below a tag and the other from it on. -/
theorem append (h : Fresh lo mid names) (h' : Fresh mid hi names') (hlo : lo ≤ mid)
    (hhi : mid ≤ hi) : Fresh lo hi (names ++ names') := by
  constructor
  · -- A name of both lists would have its tag on both sides of the middle.
    refine List.nodup_append.2 ⟨h.nodup, h'.nodup, ?_⟩
    rintro n hn m hm rfl
    have := h.tags n hn
    have := h'.tags n hm
    omega
  · intro n hn
    rcases List.mem_append.1 hn with hn | hn
    · have := h.tags n hn
      omega
    · have := h'.tags n hn
      omega

/-- The order of fresh names does not matter. -/
theorem perm (h : Fresh lo hi names) (hperm : names.Perm names') : Fresh lo hi names' :=
  ⟨hperm.nodup_iff.1 h.nodup, fun n hn => h.tags n (hperm.mem_iff.2 hn)⟩

/-- Names with tags below the bound stay distinct when new ones are added. -/
theorem nodup_append (h : Fresh lo hi names') (hnodup : names.Nodup)
    (htags : ∀ n ∈ names, n.tag < lo) : (names ++ names').Nodup := by
  refine List.nodup_append.2 ⟨hnodup, h.nodup, ?_⟩
  rintro n hn m hm rfl
  have := htags n hn
  have := h.tags n hm
  omega

end Fresh

/-- If each step of a run draws names, so does the run. -/
theorem mapM_drawn {α β : Type} {f : α → AttemptM β} {R : α → β → Prop} {d : β → List Name}
    (hf : ∀ a b st st', f a st = .ok b st' →
      R a b ∧ Drawn st.supply.next st'.supply.next (d b) ∧
        st.supply.next ≤ st'.supply.next)
    {l : List α} {bs : List β} {st st' : Attempt} (h : (l.mapM f) st = .ok bs st') :
    List.Forall₂ R l bs ∧ Drawn st.supply.next st'.supply.next (bs.flatMap d) ∧
      st.supply.next ≤ st'.supply.next := by
  refine mapM_induction (fun s l bs s' => List.Forall₂ R l bs ∧
    Drawn s.supply.next s'.supply.next (bs.flatMap d) ∧ s.supply.next ≤ s'.supply.next)
    ?_ ?_ h
  · intro s
    exact ⟨.nil, .nil, Nat.le_refl _⟩
  · intro a l b bs s s₁ s' hb ih
    obtain ⟨hR, hdrawn, hle⟩ := hf a b s s₁ hb
    obtain ⟨hall, hdrawn', hle'⟩ := ih
    exact ⟨.cons hR hall, hdrawn.append hdrawn' hle hle', Nat.le_trans hle hle'⟩

/-- What each step of a run does between the tags that it starts from and ends below holds as well
between those of the whole run. -/
theorem mapM_between {α β : Type} {f : α → AttemptM β} {R : Nat → Nat → α → β → Prop}
    (hmono : ∀ {lo lo' hi hi' : Nat} {a : α} {b : β}, R lo hi a b → lo' ≤ lo → hi ≤ hi' →
      R lo' hi' a b)
    (hf : ∀ a b st st', f a st = .ok b st' →
      R st.supply.next st'.supply.next a b ∧ st.supply.next ≤ st'.supply.next)
    {l : List α} {bs : List β} {st st' : Attempt} (h : (l.mapM f) st = .ok bs st') :
    List.Forall₂ (R st.supply.next st'.supply.next) l bs ∧ st.supply.next ≤ st'.supply.next := by
  refine mapM_induction (fun s l bs s' =>
    List.Forall₂ (R s.supply.next s'.supply.next) l bs ∧ s.supply.next ≤ s'.supply.next) ?_ ?_ h
  · intro s
    exact ⟨.nil, Nat.le_refl _⟩
  · intro a l b bs s s₁ s' hb ih
    obtain ⟨hR, hle⟩ := hf a b s s₁ hb
    obtain ⟨hall, hle'⟩ := ih
    -- The step ends before the rest of the run does, and the rest starts after the step.
    have hfirst := hmono hR (Nat.le_refl _) hle'
    have hrest := hall.imp fun a b h => hmono h hle (Nat.le_refl _)
    exact ⟨.cons hfirst hrest, Nat.le_trans hle hle'⟩

end MapNest
