import MapNest.Proofs.Analysis.Overwrites
import MapNest.Proofs.Freshen.Alpha
import MapNest.Scope

/-!
# `MapNest.Proofs.Scope`: what a statement binds

A statement binds its pattern, and at any depth inside parameters, indices and the patterns of other
statements (`Stm.Binds`). Two walks have to find all of these. One enters them in a scope with their
types, the other gives fresh names to all but the pattern. A binder that only one of them found
would be left without a type, or would be captured where the statement is moved to.

`Stm.insertStm_freshen` says that both find exactly what is bound. Each walk is compared with one
list, `Stm.binders`: the scope is filled from it, and the renaming replaces the names on it one for
one, in some order (`Freshening.Binds`). That the list is complete is the induction of
`Exp.mem_binders`.
-/

set_option autoImplicit false

namespace MapNest

variable {n : Name} {b : Binder} {s : Stm}

/-- A statement binds a name of some type: in its pattern, or somewhere inside as a parameter, as an
index, which is a 32-bit integer, or in the pattern of a statement. -/
def Stm.Binds (s : Stm) (b : Binder) : Prop :=
  b ∈ s.pattern ∨ ∃ p ∈ s.exp.parts, b ∈ p.params ∨ (∃ n ∈ p.indices, b = ⟨n, .scalar .i32⟩) ∨
    ∃ t ∈ p.inside, b ∈ t.pattern

instance : Decidable (s.Binds b) :=
  inferInstanceAs (Decidable (_ ∨ ∃ p ∈ s.exp.parts, _ ∨ (∃ n ∈ p.indices, _) ∨ ∃ t ∈ p.inside, _))

/-- The list has all that a statement binds and nothing else. -/
theorem Stm.mem_binders : b ∈ s.binders ↔ s.Binds b := by
  rw [binders, List.mem_append, Exp.mem_binders]
  rfl

/-- If a statement binds no name twice, its expression binds all but the pattern. -/
theorem Stm.mem_names_exp_binders (hnodup : (Pattern.names s.binders).Nodup) :
    n ∈ Pattern.names s.exp.binders ↔
      (∃ b, s.Binds b ∧ b.name = n) ∧ n ∉ Pattern.names s.pattern := by
  rw [binders, Pattern.names_append] at hnodup
  have hdisjoint := (List.nodup_append.1 hnodup).2.2
  constructor
  · intro hn
    obtain ⟨b, hb, hname⟩ := Pattern.mem_names.1 hn
    exact ⟨⟨b, mem_binders.1 (List.mem_append_right _ hb), hname⟩,
      fun hpattern => hdisjoint n hpattern n hn rfl⟩
  · rintro ⟨⟨b, hb, rfl⟩, hpattern⟩
    rcases List.mem_append.1 (mem_binders.2 hb) with hown | hinside
    · exact absurd (Pattern.mem_names.2 ⟨b, hown, rfl⟩) hpattern
    · exact Pattern.mem_names.2 ⟨b, hinside, rfl⟩

/-! ### Filling a scope -/

namespace Scope

variable {scope : Scope} {l : List Binder}

/-- What is not inserted keeps its type. -/
theorem lookup?_insertAll_of_not_mem (hn : n ∉ Pattern.names l) :
    (scope.insertAll l).lookup? n = scope.lookup? n := by
  induction l generalizing scope with
  | nil => rfl
  | cons c l ih =>
    rw [Pattern.names, List.map_cons, List.mem_cons, not_or] at hn
    show ((scope.insert c).insertAll l).lookup? n = _
    rw [ih hn.2, lookup?_insert_of_ne (Ne.symm hn.1)]

/-- Distinct names get the types that they are inserted with. -/
theorem lookup?_insertAll_of_mem (hnodup : (Pattern.names l).Nodup) (hb : b ∈ l) :
    (scope.insertAll l).lookup? b.name = some b.ty := by
  induction l generalizing scope with
  | nil => cases hb
  | cons c l ih =>
    rw [Pattern.names, List.map_cons, List.nodup_cons] at hnodup
    show ((scope.insert c).insertAll l).lookup? b.name = _
    rcases List.mem_cons.1 hb with rfl | hb
    · rw [lookup?_insertAll_of_not_mem hnodup.1, lookup?_insert_self]
    · exact ih hnodup.2 hb

end Scope

/-! ### Replacing names -/

namespace Freshening.Binds

variable {supply : Supply} {xs xs' : List Name} {st st' : Freshening}

/-- A walk that starts without replacements replaces the names that it binds. -/
theorem mem_names_subst (h : Binds ⟨[], supply⟩ xs xs' st') : n ∈ st'.subst.names ↔ n ∈ xs := by
  obtain ⟨new, hnew, hperm⟩ := h.subst
  have hnames := hperm.map Prod.fst
  rw [List.map_fst_zip (Nat.le_of_eq h.bases.length_eq)] at hnames
  rw [hnew, List.append_nil]
  exact hnames.mem_iff

/-- Distinct names are replaced by the names that take their places. -/
theorem map_subst (h : Binds st xs xs' st') (hnodup : xs.Nodup) :
    xs.map (Name.subst st'.subst) = xs' := by
  have hlen := h.bases.length_eq
  have hfst : ((xs.zip xs').map Prod.fst).Nodup := by
    rwa [List.map_fst_zip (Nat.le_of_eq hlen)]
  refine List.ext_getElem (by rw [List.length_map, hlen]) fun i hi hi' => ?_
  rw [List.length_map] at hi
  rw [List.getElem_map]
  -- A name has one place on the list, so its replacement stands at this place.
  have hpair : (xs[i], xs'[i]) ∈ xs.zip xs' := List.mem_iff_getElem.2
    ⟨i, by rw [List.length_zip]; omega, List.getElem_zip⟩
  exact congrArg Prod.snd
    (List.inj_on_of_nodup_map hfst (h.mem_zip (List.getElem_mem hi)) hpair rfl)

end Freshening.Binds

/-! ### The theorem -/

/-- Renaming and the scope agree on what a statement binds, if it binds no name twice. Entered in a
scope, each name that is bound in it has its type, and all other names have the types they had. Its
binders list what it binds, and they are as many as its pattern has names and a renaming draws. The
renaming succeeds if there are tags enough. It leaves the pattern as it is and replaces just the
other names bound, each binder by one with the name that it is replaced by; these names are new. -/
theorem Stm.insertStm_freshen (hnodup : (Pattern.names s.binders).Nodup) :
    (∀ b, b ∈ s.binders ↔ s.Binds b) ∧
    (∀ scope : Scope, (∀ b, s.Binds b → (scope.insertStm s).lookup? b.name = some b.ty) ∧
      ∀ n, (∀ b, s.Binds b → b.name ≠ n) → (scope.insertStm s).lookup? n = scope.lookup? n) ∧
    ∀ supply, (supply.next + s.exp.binders.length ≤ Supply.lastTag →
        ∃ s' supply', s.freshen supply = .ok s' supply') ∧
      ∀ s' supply', s.freshen supply = .ok s' supply' →
        s'.pattern = s.pattern ∧
        supply.next + s.binders.length = s.pattern.length + supply'.next ∧
        ∃ σ, s.exp.freshen ⟨[], supply⟩ = .ok s'.exp ⟨σ, supply'⟩ ∧
          (∀ n, n ∈ σ.names ↔ (∃ b, s.Binds b ∧ b.name = n) ∧ n ∉ Pattern.names s.pattern) ∧
          Pattern.names s'.exp.binders = (Pattern.names s.exp.binders).map (Name.subst σ) ∧
          ∀ n ∈ σ.names, (n.subst σ).base = n.base ∧ supply.next ≤ (n.subst σ).tag ∧
            (n.subst σ).tag < supply'.next := by
  have hinside : (Pattern.names s.exp.binders).Nodup := by
    rw [binders, Pattern.names_append] at hnodup
    exact (List.nodup_append.1 hnodup).2.1
  refine ⟨fun b => mem_binders, fun scope => ⟨fun b hb => ?_, fun n hn => ?_⟩, fun supply =>
    ⟨fun htags => ?_, fun s' supply' h => ?_⟩⟩
  · exact Scope.lookup?_insertAll_of_mem hnodup (mem_binders.2 hb)
  · refine Scope.lookup?_insertAll_of_not_mem fun hmem => ?_
    obtain ⟨b, hb, hname⟩ := Pattern.mem_names.1 hmem
    exact hn b (mem_binders.1 hb) hname
  · rcases s.draws.cases (s := supply) (by omega) with ⟨-, s', supply', h, -⟩ | ⟨hlt, -⟩
    · exact ⟨s', supply', h⟩
    · omega
  · obtain ⟨e', ⟨σ, supply'⟩, hexp, rfl, rfl⟩ := freshen_eq_ok h
    have hbinds := (Exp.renews hexp).binds
    have hgives := hbinds.givesFresh
    have hnames : ∀ n, n ∈ σ.names ↔ n ∈ Pattern.names s.exp.binders := fun n =>
      hbinds.mem_names_subst
    refine ⟨rfl, ?_, σ, hexp, fun n => (hnames n).trans (mem_names_exp_binders hnodup),
      (hbinds.map_subst hinside).symm, fun n hn => ?_⟩
    · have hcount := hbinds.supply
      rw [Pattern.names, List.length_map] at hcount
      rw [binders, List.length_append]
      show _ = _ + supply'.next
      simp only at hcount
      omega
    · have hn := (hnames n).1 hn
      exact ⟨hgives.base n hn, hgives.tag n hn⟩

/-! The loop in a kernel in a map of `Filling` binds twelve names, eleven of them inside: `i`,
`row`, `key`, `ys`, `g`, `j`, `x`, `r`, `acc`, `t` and `u`. -/

/-- All twelve names get their types, and eleven of them are replaced: the pattern and what is read
from outside stay. -/
theorem Stm.insertStm_freshen_filling :
    (Pattern.names Filling.stm.binders).Nodup ∧
      (∀ scope : Scope,
        (scope.insertStm Filling.stm).lookup? ⟨"acc", 9⟩ = some (Filling.ints [4]) ∧
        (scope.insertStm Filling.stm).lookup? ⟨"j", 7⟩ = some (.scalar .i32) ∧
        (scope.insertStm Filling.stm).lookup? ⟨"xss", 1⟩ = scope.lookup? ⟨"xss", 1⟩) ∧
      ∃ s' supply' σ, Filling.stm.freshen ⟨14⟩ = .ok s' supply' ∧ supply'.next = 25 ∧
        Filling.stm.exp.freshen ⟨[], ⟨14⟩⟩ = .ok s'.exp ⟨σ, supply'⟩ ∧
        ⟨"t", 10⟩ ∈ σ.names ∧ ⟨"yss", 0⟩ ∉ σ.names ∧ ⟨"xss", 1⟩ ∉ σ.names := by
  have hnodup : (Pattern.names Filling.stm.binders).Nodup := by decide
  obtain ⟨hbinders, hscope, hrenames⟩ := Stm.insertStm_freshen hnodup
  have hfree : ∀ b, Filling.stm.Binds b → b.name ≠ ⟨"xss", 1⟩ := by
    intro b hb
    have hall : ∀ b ∈ Filling.stm.binders, b.name ≠ ⟨"xss", 1⟩ := by decide
    exact hall b ((hbinders b).2 hb)
  refine ⟨hnodup, fun scope => ⟨?_, ?_, ?_⟩, ?_⟩
  · exact (hscope scope).1 ⟨⟨"acc", 9⟩, Filling.ints [4]⟩ (by decide)
  · exact (hscope scope).1 ⟨⟨"j", 7⟩, .scalar .i32⟩ (by decide)
  · exact (hscope scope).2 _ hfree
  · obtain ⟨s', supply', h⟩ := (hrenames ⟨14⟩).1 (by decide)
    obtain ⟨-, hcount, σ, hexp, hnames, -⟩ := (hrenames ⟨14⟩).2 s' supply' h
    have hbinds : Filling.stm.Binds ⟨⟨"t", 10⟩, .scalar .i32⟩ := by decide
    refine ⟨s', supply', σ, h, ?_, hexp, (hnames _).2 ⟨⟨_, hbinds, rfl⟩, by decide⟩, ?_, ?_⟩
    · have hpattern : Filling.stm.pattern.length = 1 := rfl
      have hlength : Filling.stm.binders.length = 12 := by decide
      rw [hpattern, hlength] at hcount
      simp only at hcount
      omega
    · exact fun hyss => ((hnames _).1 hyss).2 (by decide)
    · intro hxss
      obtain ⟨⟨b, hb, hname⟩, -⟩ := (hnames _).1 hxss
      exact hfree b hb hname

end MapNest
