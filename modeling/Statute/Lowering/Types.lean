import Statute.Env
import Statute.Lowering.Obstacle

/-!
# Types of bound variables

The type that a quantifier or a declared value ranges over is resolved against the declarations of
a checked program. Aliases may be nested up to `maxAliases` deep.
-/

namespace Statute

/-- How deep aliases may be expanded inside one another. -/
def maxAliases : Nat := 32

/-- How to resolve the target of an alias: its name, its parameters and the target. -/
abbrev AliasTarget := Ident → List String → TypeExpr → Except Obstacle Ty

/-- The type that a declared name with resolved arguments stands for. -/
def declaredType (env : Env) (expand : AliasTarget) (span : Span) (name : Ident) (d : TypeDef)
    (args : List Ty) : Except Obstacle Ty :=
  match env.instantiate name.name args with
  | .error a => .error ⟨.typeArity name.name a.expected a.got, span⟩
  | .ok binding =>
    match d.body with
    | .struct _ _ => .ok (.struct name.name args)
    | .enum _ => .ok (.enum name.name)
    | .synonym target => do
      let t ← expand name d.params target
      return binding.apply t

mutual

/-- The type that an expression stands for, given how to expand aliases. -/
def typeWith (env : Env) (expand : AliasTarget) (params : List String) :
    TypeExpr → Except Obstacle Ty
  | .prim _ p => .ok (.prim p)
  | .var _ v =>
    if params.contains v.name then .ok (.var v.name) else .error ⟨.unknownType v.name, v.span⟩
  | .named span name args =>
    if args.isEmpty && params.contains name.name then .ok (.var name.name)
    else
      match Prim.ofName? name.name with
      | some p => .ok (.prim p)
      | none =>
        match env.lookup name.name with
        | none => .error ⟨.unknownType name.name, name.span⟩
        | some d => do
          let tys ← typesWith env expand params args
          declaredType env expand span name d tys
  | .refine _ base lo hi => do return .refine (← typeWith env expand params base) lo hi
  | .citation _ c => .ok (.citation c)
  | .temporal _ inner opens closes => do
    let t ← typeWith env expand params inner
    return .temporal t (opens.bind Date.parse?) (closes.bind Date.parse?)
  | .array _ inner => do return .array (← typeWith env expand params inner)
  | .positive _ inner => do return .positive (← typeWith env expand params inner)
  | .nonEmpty _ inner => do return .nonEmpty (← typeWith env expand params inner)
  | .validDate _ after before =>
    .ok (.validDate (after.bind Date.parse?) (before.bind Date.parse?))
  | .union _ a b => do
    let l ← typeWith env expand params a
    let r ← typeWith env expand params b
    return .union l r
  | .moneyIn _ code => .ok (.moneyIn code)

/-- The types that several expressions stand for. -/
def typesWith (env : Env) (expand : AliasTarget) (params : List String) :
    List TypeExpr → Except Obstacle (List Ty)
  | [] => .ok []
  | t :: ts => do
    let u ← typeWith env expand params t
    let us ← typesWith env expand params ts
    return u :: us

end

/-- The type that an expression stands for, with room for `depth` aliases inside one another. -/
def typeIn (env : Env) : Nat → List String → TypeExpr → Except Obstacle Ty
  | 0, params => typeWith env (fun name _ _ => .error ⟨.unknownType name.name, name.span⟩) params
  | depth + 1, params => typeWith env (fun _ ps target => typeIn env depth ps target) params

/-- The type that an expression without type parameters stands for. -/
def typeOf (env : Env) (t : TypeExpr) : Except Obstacle Ty := typeIn env maxAliases [] t

end Statute
