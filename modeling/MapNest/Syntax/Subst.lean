import MapNest.Syntax.Exp

/-!
# `MapNest.Syntax.Subst`: replacing names

A `Subst` replaces names by names. It is a list of replacements, the latest first, and the latest
one for a name is the one that counts; a name without a replacement stays. `subst` on each kind of
syntax without bodies replaces all the names mentioned there; names that are bound are left to the
caller.
-/

set_option autoImplicit false

namespace MapNest

/-- Replacements of names, the latest first. -/
abbrev Subst := List (Name × Name)

/-- The name that takes the place of a name. -/
def Name.subst (σ : Subst) (n : Name) : Name := (σ.lookup n).getD n

/-- Replaces the name of a variable. -/
def Operand.subst (σ : Subst) : Operand → Operand
  | const c => .const c
  | var n => .var (n.subst σ)

/-- Replaces the names among the sizes. -/
def Ty.subst (σ : Subst) : Ty → Ty
  | scalar elem => .scalar elem
  | array elem dims unique => .array elem (dims.map (Operand.subst σ)) unique

/-- Replaces the names in the type of a binder and keeps the name it binds. -/
def Binder.substTy (σ : Subst) (b : Binder) : Binder := { b with ty := b.ty.subst σ }

/-- Replaces the names in a size. -/
def NewDim.subst (σ : Subst) : NewDim → NewDim
  | exact size => .exact (size.subst σ)
  | coercion size => .coercion (size.subst σ)

/-- Replaces the names that an operation mentions. -/
def Op.subst (σ : Subst) : Op → Op
  | value v => .value (v.subst σ)
  | arith op ty left right => .arith op ty (left.subst σ) (right.subst σ)
  | index checks array indices =>
    .index (checks.map (Name.subst σ)) (array.subst σ) (indices.map (Operand.subst σ))
  | iota count => .iota (count.subst σ)
  | replicate count v => .replicate (count.subst σ) (v.subst σ)
  | rearrange checks perm array => .rearrange (checks.map (Name.subst σ)) perm (array.subst σ)
  | reshape checks shape array =>
    .reshape (checks.map (Name.subst σ)) (shape.map (NewDim.subst σ)) (array.subst σ)
  | copy array => .copy (array.subst σ)

/-- Without replacements a name stays. -/
@[simp] theorem Name.subst_nil {n : Name} : n.subst [] = n := rfl

/-- Without replacements an operand stays. -/
@[simp] theorem Operand.subst_nil {v : Operand} : v.subst [] = v := by
  cases v <;> rfl

/-- Without replacements a type stays. -/
@[simp] theorem Ty.subst_nil {ty : Ty} : ty.subst [] = ty := by
  cases ty with
  | scalar elem => rfl
  | array elem dims unique =>
    have : Operand.subst [] = id := funext fun v => Operand.subst_nil
    simp [Ty.subst, this]

end MapNest
