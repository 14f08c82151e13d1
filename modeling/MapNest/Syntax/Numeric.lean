import MapNest.Float.Format
import MapNest.Syntax.Exp

/-!
# `MapNest.Syntax.Numeric`: equality of programs up to the numbers they hold

`=` on the syntax compares representations. Here two programs are compared by the numbers that
their floating-point constants stand for: the two zeros are the same constant, and a program that
holds a NaN differs even from itself. Everything but constants is compared as it is.
-/

set_option autoImplicit false

namespace MapNest

/-- Two lists agree when they have one length and their members agree in order. -/
def listEq {α : Type} (eq : α → α → Bool) : List α → List α → Bool
  | [], [] => true
  | a :: as, b :: bs => eq a b && listEq eq as bs
  | _, _ => false

/-- Equality of constants as numbers. -/
def Const.valueEq : Const → Const → Bool
  | f32 a, f32 b => FloatFormat.binary32.equal a.toNat b.toNat
  | f64 a, f64 b => FloatFormat.binary64.equal a.toNat b.toNat
  | a, b => a = b

/-- Equality of operands up to the numbers of constants. -/
def Operand.valueEq : Operand → Operand → Bool
  | const a, const b => a.valueEq b
  | a, b => a = b

/-- Equality of types up to the numbers of constants. -/
def Ty.valueEq : Ty → Ty → Bool
  | scalar a, scalar b => a = b
  | array a ds u, array b es v => a = b && listEq Operand.valueEq ds es && u == v
  | _, _ => false

/-- Equality of binders up to the numbers of constants. -/
def Binder.valueEq (a b : Binder) : Bool := a.name = b.name && a.ty.valueEq b.ty

/-- Equality of patterns up to the numbers of constants. -/
def Pattern.valueEq (p q : Pattern) : Bool := listEq Binder.valueEq p q

/-- Equality of the sizes of a shape, and of how they are given. -/
def NewDim.valueEq : NewDim → NewDim → Bool
  | exact a, exact b => a.valueEq b
  | coercion a, coercion b => a.valueEq b
  | _, _ => false

/-- Equality of operations up to the numbers of constants. -/
def Op.valueEq : Op → Op → Bool
  | value a, value b => a.valueEq b
  | arith o t a b, arith o' t' a' b' => o = o' && t = t' && a.valueEq a' && b.valueEq b'
  | index cs x is, index cs' x' is' => cs = cs' && x = x' && listEq Operand.valueEq is is'
  | iota a, iota b => a.valueEq b
  | replicate n v, replicate n' v' => n.valueEq n' && v.valueEq v'
  | rearrange cs p x, rearrange cs' p' x' => cs = cs' && p = p' && x = x'
  | reshape cs s x, reshape cs' s' x' => cs = cs' && listEq NewDim.valueEq s s' && x = x'
  | copy x, copy x' => x = x'
  | _, _ => false

/-- Equality of carried values. -/
def Merge.valueEq (a b : Merge) : Bool := a.param.valueEq b.param && a.init.valueEq b.init

/-- Equality of loop forms. -/
def LoopForm.valueEq : LoopForm → LoopForm → Bool
  | forBelow i n, forBelow j m => i = j && n.valueEq m
  | whileTrue c, whileTrue d => c = d
  | _, _ => false

/-- Equality of dimensions of an iteration space. -/
def Axis.valueEq (a b : Axis) : Bool := a.index = b.index && a.size.valueEq b.size

/-- Equality of kernel inputs. -/
def KernelInput.valueEq (a b : KernelInput) : Bool :=
  a.param.valueEq b.param && a.array = b.array && listEq Operand.valueEq a.indices b.indices

/-- Equality of kernel results. -/
def KernelOutput.valueEq (a b : KernelOutput) : Bool := a.ty.valueEq b.ty && a.axes = b.axes

mutual

/-- Equality of expressions up to the numbers of constants. -/
def Exp.valueEq : Exp → Exp → Bool
  | .op a, .op b => a.valueEq b
  | .update cs x is v, .update cs' x' is' v' =>
    cs = cs' && x = x' && listEq Operand.valueEq is is' && v.valueEq v'
  | .loop a, .loop b => a.valueEq b
  | .map cs w f xs, .map cs' w' f' xs' => cs = cs' && w.valueEq w' && f.valueEq f' && xs = xs'
  | .kernel a, .kernel b => a.valueEq b
  | _, _ => false

/-- Equality of loops up to the numbers of constants. -/
def Loop.valueEq : Loop → Loop → Bool
  | ⟨ret, merge, form, body⟩, ⟨ret', merge', form', body'⟩ =>
    ret = ret' && listEq Merge.valueEq merge merge' && form.valueEq form' && body.valueEq body'

/-- Equality of functions up to the numbers of constants. -/
def Lambda.valueEq : Lambda → Lambda → Bool
  | ⟨index, params, body, returns⟩, ⟨index', params', body', returns'⟩ =>
    index = index' && listEq Binder.valueEq params params' && body.valueEq body' &&
      listEq Ty.valueEq returns returns'

/-- Equality of kernels up to the numbers of constants. -/
def Kernel.valueEq : Kernel → Kernel → Bool
  | ⟨cs, w, t, space, ins, outs, body⟩, ⟨cs', w', t', space', ins', outs', body'⟩ =>
    cs = cs' && w.valueEq w' && t = t' && listEq Axis.valueEq space space' &&
      listEq KernelInput.valueEq ins ins' && listEq KernelOutput.valueEq outs outs' &&
      body.valueEq body'

/-- Equality of bodies up to the numbers of constants. -/
def Body.valueEq : Body → Body → Bool
  | .yield a, .yield b => listEq Operand.valueEq a b
  | .bind p e rest, .bind p' e' rest' =>
    Pattern.valueEq p p' && e.valueEq e' && rest.valueEq rest'
  | _, _ => false

end

/-- Equality of statements up to the numbers of constants. -/
def Stm.valueEq (a b : Stm) : Bool := Pattern.valueEq a.pattern b.pattern && a.exp.valueEq b.exp

end MapNest
