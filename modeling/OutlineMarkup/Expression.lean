import OutlineMarkup.Expression.Builtin
import OutlineMarkup.Expression.Reader

/-!
# Expressions

An expression is read completely before any of it is computed. Operands are computed from left to
right; `and`, `or` and `if` leave out what does not matter.
-/

namespace OutlineMarkup

namespace Expression

mutual

def Expr.compute : Expr → Except Fault Value
  | .value v => .ok v
  | .name n =>
    match nameMeaning? n with
    | some v => .ok v
    | none => .error .unknownName
  | .list items => do return .list (← computeAll items)
  | .tuple items => do return .tuple (← computeAll items)
  | .braces parts => do
    discard (computeAll parts)
    .error .wrongType
  | .unary op e => do op.apply (← e.compute)
  | .binary op a b => do
    let v ← a.compute
    let w ← b.compute
    op.apply v w
  | .compare op a b => do
    let v ← a.compute
    let w ← b.compute
    return .bool (← op.apply v w)
  | .both a b => do
    let v ← a.compute
    if v.isTrue then b.compute else return v
  | .either a b => do
    let v ← a.compute
    if v.isTrue then return v else b.compute
  | .negation e => do return .bool !(← e.compute).isTrue
  | .choice yes condition no => do
    if (← condition.compute).isTrue then yes.compute else no.compute
  | .call f args words => do
    let v ← f.compute
    let vs ← computeAll args
    v.call vs words
  | .member e n => do (← e.compute).member n
  | .item e i => do
    let v ← e.compute
    let w ← i.compute
    v.item w
  | .part e start stop step => do
    let v ← e.compute
    let a ← start.compute
    let b ← stop.compute
    let k ← step.compute
    v.part a b k

def computeAll : List Expr → Except Fault (List Value)
  | [] => .ok []
  | e :: es => do
    let v ← e.compute
    let vs ← computeAll es
    return v :: vs

end

def compute (s : Text) : Except Fault Value := do (← Expr.read s).compute

def result (s : Text) : Except Fault Text := do return (← compute s).written

end Expression
end OutlineMarkup
